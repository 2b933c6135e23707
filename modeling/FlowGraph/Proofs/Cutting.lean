import FlowGraph.Text.Position

/-!
# Cutting text

Cuts of texts as equations between texts: a text is cut at a position exactly when it is two texts one after the
other, the first of that many bytes. What stands before and after a part changes neither what is cut out of the part
nor where the part has its boundaries.
-/

namespace FlowGraph.Text

theorem byteSize_eq (cs : List Char) : byteSize cs = (String.ofList cs).utf8ByteSize := by
  induction cs with
  | nil => rw [String.ofList_nil]; rfl
  | cons c cs ih =>
    have hsplit : String.ofList (c :: cs) = String.singleton c ++ String.ofList cs := by
      rw [String.singleton_eq_ofList, ← String.ofList_append]; rfl
    rw [byteSize_cons, ih, hsplit, String.utf8ByteSize_append, String.utf8ByteSize_singleton]

theorem byteSize_toList (s : String) : byteSize s.toList = s.utf8ByteSize := by
  rw [byteSize_eq, String.ofList_toList]

def split? (s : String) (position : Nat) : Option (String × String) :=
  (cut? s.toList position).map fun (a, b) => (String.ofList a, String.ofList b)

theorem split?_eq_some_iff {s a b : String} {n : Nat} :
    split? s n = some (a, b) ↔ s = a ++ b ∧ a.utf8ByteSize = n := by
  simp only [split?, Option.map_eq_some_iff, Prod.exists, Prod.mk.injEq, cut?_eq_some_iff]
  constructor
  · rintro ⟨x, y, ⟨hs, hn⟩, rfl, rfl⟩
    refine ⟨?_, by rw [← byteSize_eq, hn]⟩
    rw [← String.ofList_append, ← hs, String.ofList_toList]
  · rintro ⟨rfl, hn⟩
    exact ⟨a.toList, b.toList, ⟨String.toList_append, by rw [byteSize_toList, hn]⟩, String.ofList_toList,
      String.ofList_toList⟩

theorem split?_append (a b : String) : split? (a ++ b) a.utf8ByteSize = some (a, b) :=
  split?_eq_some_iff.2 ⟨rfl, rfl⟩

theorem isSome_split? (s : String) (n : Nat) : (split? s n).isSome = isBoundary s n := by
  rw [split?, Option.isSome_map, isBoundary]

theorem isBoundary_iff {s : String} {n : Nat} :
    isBoundary s n = true ↔ ∃ a b, s = a ++ b ∧ a.utf8ByteSize = n := by
  rw [← isSome_split?, Option.isSome_iff_exists]
  simp only [Prod.exists, split?_eq_some_iff]

theorem isBoundary_append (a b : String) : isBoundary (a ++ b) a.utf8ByteSize = true :=
  isBoundary_iff.2 ⟨a, b, rfl, rfl⟩

theorem le_of_isBoundary {s : String} {n : Nat} (h : isBoundary s n = true) : n ≤ s.utf8ByteSize := by
  obtain ⟨a, b, rfl, rfl⟩ := isBoundary_iff.1 h
  rw [String.utf8ByteSize_append]
  exact Nat.le_add_right ..

theorem cut?_append_right (a cs : List Char) (n : Nat) :
    cut? (a ++ cs) (byteSize a + n) = (cut? cs n).map fun (x, y) => (a ++ x, y) := by
  cases hcut : cut? cs n with
  | some r =>
    obtain ⟨x, y⟩ := r
    obtain ⟨rfl, rfl⟩ := cut?_eq_some_iff.1 hcut
    exact cut?_eq_some_iff.2 ⟨(List.append_assoc ..).symm, byteSize_append ..⟩
  | none =>
    induction a with
    | nil => simpa [byteSize] using hcut
    | cons c a ih =>
      have hpos := Char.utf8Size_pos c
      obtain ⟨k, hk⟩ : ∃ k, byteSize (c :: a) + n = k + 1 :=
        ⟨byteSize (c :: a) + n - 1, by rw [byteSize_cons]; omega⟩
      have hrest : k + 1 - c.utf8Size = byteSize a + n := by rw [← hk, byteSize_cons]; omega
      rw [hk, List.cons_append, cut?, hrest, ih]
      split <;> rfl

theorem isSome_cut?_append_left {cs : List Char} {n : Nat} (b : List Char) (h : n ≤ byteSize cs) :
    (cut? (cs ++ b) n).isSome = (cut? cs n).isSome := by
  induction cs generalizing n with
  | nil =>
    obtain rfl : n = 0 := by simpa [byteSize] using h
    simp [cut?]
  | cons c cs ih =>
    cases n with
    | zero => simp [cut?]
    | succ n =>
      rw [List.cons_append, cut?, cut?]
      split
      next hle =>
        have hpos := Char.utf8Size_pos c
        rw [byteSize_cons] at h
        rw [Option.isSome_map, Option.isSome_map, ih (by omega)]
      next => rfl

theorem isBoundary_append_right (a s : String) (n : Nat) :
    isBoundary (a ++ s) (a.utf8ByteSize + n) = isBoundary s n := by
  rw [isBoundary, String.toList_append, ← byteSize_toList a, cut?_append_right, Option.isSome_map, isBoundary]

theorem isBoundary_append_left {s : String} (b : String) {n : Nat} (h : n ≤ s.utf8ByteSize) :
    isBoundary (s ++ b) n = isBoundary s n := by
  rw [← byteSize_toList] at h
  rw [isBoundary, String.toList_append, isSome_cut?_append_left _ h, isBoundary]

theorem isBoundary_surrounded {a s b : String} {n : Nat} (h : n ≤ s.utf8ByteSize) :
    isBoundary (a ++ s ++ b) (a.utf8ByteSize + n) = isBoundary s n := by
  rw [String.append_assoc, isBoundary_append_right, isBoundary_append_left b h]

theorem slice_surrounded (a s b : String) : slice (a ++ s ++ b) a.utf8ByteSize s.utf8ByteSize = s := by
  have hstart : cut? (a ++ s ++ b).toList a.utf8ByteSize = some (a.toList, s.toList ++ b.toList) := by
    refine cut?_eq_some_iff.2 ⟨?_, byteSize_toList a⟩
    rw [String.toList_append, String.toList_append, List.append_assoc]
  have hstop : cut? (s.toList ++ b.toList) s.utf8ByteSize = some (s.toList, b.toList) :=
    cut?_eq_some_iff.2 ⟨rfl, byteSize_toList s⟩
  simp only [slice, hstart, hstop, String.ofList_toList]

def truncate? (s : String) (size : Nat) : Option String :=
  if s.utf8ByteSize ≤ size then some s else (split? s size).map (·.1)

theorem truncate?_append (a b : String) : truncate? (a ++ b) a.utf8ByteSize = some a := by
  rw [truncate?, split?_append]
  split
  next hle =>
    rw [String.utf8ByteSize_append] at hle
    have hnone : b = "" := String.utf8ByteSize_eq_zero_iff.1 (by omega)
    rw [hnone, String.append_empty]
  next => rfl

end FlowGraph.Text
