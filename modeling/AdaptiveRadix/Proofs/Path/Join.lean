/-
Joined paths. A path stores nine bytes at most, and yet a path that was joined is the one that all
its bytes would have made at once, in whatever order the joins were done. So a path that is cut
where a key leaves it, and joined again when the fork there has gone, is the path that it was.
-/
import AdaptiveRadix.Path.Lemmas
import AdaptiveRadix.Tree.Erase

namespace AdaptiveRadix

/-- What a path lost to a cut comes back when its lower part is lifted above the cut. -/
theorem Tree.lift_ofBytes {upper lower : List UInt8} {byte : UInt8} {node : Node Tree}
    (hsize : upper.length + 1 + lower.length < UInt32.size)
    (hnode : node.path = .ofBytes (upper ++ byte :: lower)) :
    (inner { node with path := .ofBytes lower }).lift (.ofBytes upper) byte = inner node := by
  rw [lift, Path.join_ofBytes hsize, ← hnode]

namespace Path

variable {a c e p : List UInt8} {b d : UInt8} {m : Nat}

theorem join_assoc (h : a.length + 1 + c.length + 1 + e.length < UInt32.size) :
    join (join (ofBytes a) b (ofBytes c)) d (ofBytes e) =
      join (ofBytes a) b (join (ofBytes c) d (ofBytes e)) := by
  have hleft : (a ++ b :: c).length + 1 + e.length < UInt32.size := by
    simp
    omega
  have hright : a.length + 1 + (c ++ d :: e).length < UInt32.size := by
    simp
    omega
  calc join (join (ofBytes a) b (ofBytes c)) d (ofBytes e)
      = join (ofBytes (a ++ b :: c)) d (ofBytes e) := by rw [join_ofBytes (by omega)]
    _ = ofBytes ((a ++ b :: c) ++ d :: e) := join_ofBytes hleft
    _ = ofBytes (a ++ b :: (c ++ d :: e)) := by rw [List.append_assoc, List.cons_append]
    _ = join (ofBytes a) b (ofBytes (c ++ d :: e)) := (join_ofBytes hright).symm
    _ = join (ofBytes a) b (join (ofBytes c) d (ofBytes e)) := by rw [← join_ofBytes (by omega)]

/-- Where a path is cut: what stands before a byte of it, the byte, and what stands after. -/
theorem eq_cut (hm : m < p.length) : p = p.take m ++ p[m] :: p.drop (m + 1) := by
  rw [List.getElem_cons_drop hm, List.take_append_drop]

theorem length_cut (hm : m < p.length) :
    (p.take m).length + 1 + (p.drop (m + 1)).length = p.length := by
  rw [List.length_take, List.length_drop]
  omega

/-- Joining paths is appending their bytes around the byte between them, although of neither more than
nine bytes are at hand: the length is that of all the bytes, and the first nine of them are stored.
So joins may be done in any order, and a path that was cut, at whatever byte, is whole again once
its parts are joined, or the node below the cut is lifted above it. -/
theorem join_appends :
    (∀ (a c : List UInt8) (b : UInt8), a.length + 1 + c.length < UInt32.size →
      join (ofBytes a) b (ofBytes c) = ofBytes (a ++ [b] ++ c) ∧
      (join (ofBytes a) b (ofBytes c)).length = a.length + 1 + c.length ∧
      (join (ofBytes a) b (ofBytes c)).stored.toList =
        (a ++ [b] ++ c).take 9 ++ List.replicate (9 - (a.length + 1 + c.length)) 0 ∧
      (join (ofBytes a) b (ofBytes c)).inline = (a ++ [b] ++ c).take 9) ∧
    (∀ (a c e : List UInt8) (b d : UInt8), a.length + 1 + c.length + 1 + e.length < UInt32.size →
      join (join (ofBytes a) b (ofBytes c)) d (ofBytes e) =
        join (ofBytes a) b (join (ofBytes c) d (ofBytes e))) ∧
    ∀ (p : List UInt8) (m : Nat) (hm : m < p.length), p.length < UInt32.size →
      join (ofBytes (p.take m)) p[m] (ofBytes (p.drop (m + 1))) = ofBytes p ∧
      ∀ node : Node Tree, node.path = ofBytes p →
        (Tree.inner { node with path := ofBytes (p.drop (m + 1)) }).lift (ofBytes (p.take m)) p[m] =
          .inner node := by
  refine ⟨fun a c b h => ?_, fun a c e b d h => join_assoc h, fun p m hm hsize => ?_⟩
  · have hlength : (a ++ [b] ++ c).length = a.length + 1 + c.length := by
      rw [List.length_append, List.length_append, List.length_singleton]
    have hbytes : (a ++ [b] ++ c).length < UInt32.size := hlength ▸ h
    have hjoin : join (ofBytes a) b (ofBytes c) = ofBytes (a ++ [b] ++ c) := by
      rw [join_ofBytes h, List.append_cons]
    rw [hjoin]
    refine ⟨rfl, ?_, ?_, inline_ofBytes hbytes⟩
    · rw [length_ofBytes hbytes, hlength]
    · rw [toList_stored_ofBytes, hlength]
  · have hcut : (p.take m).length + 1 + (p.drop (m + 1)).length < UInt32.size := by
      rw [length_cut hm]
      exact hsize
    refine ⟨?_, fun node hnode => Tree.lift_ofBytes hcut ?_⟩
    · rw [join_ofBytes hcut, ← eq_cut hm]
    · rw [← eq_cut hm, hnode]

/-- Fourteen bytes, so that some of them are not stored, and cut where the ninth of them stands. -/
theorem join_appends_around_nine :
    let p : List UInt8 := [97, 97, 97, 97, 97, 97, 97, 97, 98, 99, 99, 99, 99, 99]
    join (ofBytes (p.take 8)) 98 (ofBytes (p.drop 9)) = ofBytes p ∧
      (ofBytes p).inline = [97, 97, 97, 97, 97, 97, 97, 97, 98] ∧
      join (join (ofBytes (p.take 8)) 98 (ofBytes [99])) 99 (ofBytes [99, 99, 99]) =
        join (ofBytes (p.take 8)) 98 (join (ofBytes [99]) 99 (ofBytes [99, 99, 99])) ∧
      (Tree.inner (.empty (ofBytes (p.drop 9)))).lift (ofBytes (p.take 8)) 98 =
        .inner (.empty (ofBytes p)) := by
  intro p
  obtain ⟨hjoins, hassoc, hcut⟩ := join_appends
  obtain ⟨hwhole, hlifted⟩ := hcut p 8 (by decide) (by decide)
  obtain ⟨-, -, -, hinline⟩ := hjoins (p.take 8) (p.drop 9) 98 (by decide)
  refine ⟨hwhole, ?_, hassoc _ _ _ _ _ (by decide), hlifted (.empty (ofBytes p)) rfl⟩
  rw [← hwhole]
  exact hinline

end Path

end AdaptiveRadix
