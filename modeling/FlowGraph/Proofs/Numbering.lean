import FlowGraph.Property
import FlowGraph.Proofs.Outcome
import Mathlib.Data.List.Induction
import Mathlib.Data.List.Nodup
import Std.Data.String.ToNat

/-!
# Numbering

What an addition returns, what a search finds and what a listing gives are the same numbers, up to the last one that
eight bits hold. A listing takes each number with the next one in hand, though: it stops short of the last property
of a full bag, and of its own end where one property fewer is in the bag.
-/

namespace FlowGraph

namespace PropertyBag

variable {b b' : PropertyBag} {es : List (Nat × Property)} {ps : List Property} {p : Property}
  {name : String} {i k n : Nat}

/-- These properties, under the numbers from this one on. -/
def numbered (ps : List Property) (n : Nat) : List (Nat × Property) := (ps.zipIdx n).map Prod.swap

theorem numbered_cons : numbered (p :: ps) n = (n, p) :: numbered ps (n + 1) := rfl

theorem numbered_concat : numbered (ps ++ [p]) 0 = numbered ps 0 ++ [(ps.length, p)] := by
  rw [numbered, List.zipIdx_append, List.map_append, Nat.zero_add]
  rfl

theorem length_numbered : (numbered ps n).length = ps.length := by
  rw [numbered, List.length_map, List.length_zipIdx]

theorem map_snd_numbered : (numbered ps n).map Prod.snd = ps := by
  rw [numbered, List.map_map]
  exact List.zipIdx_map_fst n ps

theorem mem_numbered_iff : (i, p) ∈ numbered ps 0 ↔ ps[i]? = some p := by
  rw [numbered, List.mem_map]
  constructor
  · rintro ⟨⟨q, j⟩, hmem, heq⟩
    cases heq
    exact List.mk_mem_zipIdx_iff_getElem?.1 hmem
  · intro hi
    exact ⟨(p, i), List.mk_mem_zipIdx_iff_getElem?.2 hi, rfl⟩

theorem nodup_names_concat : ((ps ++ [p]).map Property.name).Nodup ↔
    p.name ∉ ps.map Property.name ∧ (ps.map Property.name).Nodup := by
  rw [List.map_append, List.nodup_append_comm]
  exact List.nodup_cons

theorem number?_of_lt (h : n < capacity) : number? n = some n := if_pos h

theorem number?_of_le (h : capacity ≤ n) : number? n = none := if_neg (Nat.not_lt.2 h)

theorem find?_eq (hfits : b.size ≤ capacity) : b.find? name = b.toList.findIdx? (·.name == name) := by
  rw [find?]
  cases hi : b.toList.findIdx? (·.name == name) with
  | none => rfl
  | some i =>
    obtain ⟨hlt, -⟩ := List.findIdx?_eq_some_iff_getElem.1 hi
    exact number?_of_lt (Nat.lt_of_lt_of_le hlt hfits)

theorem find?_eq_none_iff (hfits : b.size ≤ capacity) : b.find? name = none ↔ name ∉ b.toList.map Property.name := by
  rw [find?_eq hfits, List.findIdx?_eq_none_iff, List.mem_map]
  simp only [beq_eq_false_iff_ne, not_exists, not_and, ne_eq]

theorem find?_of_getElem? (hnames : (b.toList.map Property.name).Nodup) (hfits : b.size ≤ capacity)
    (hi : b.toList[i]? = some p) : b.find? p.name = some i := by
  obtain ⟨hlt, rfl⟩ := List.getElem?_eq_some_iff.1 hi
  rw [find?_eq hfits, List.findIdx?_eq_some_iff_getElem]
  refine ⟨hlt, beq_self_eq_true _, ?_⟩
  intro j hj heq
  have hij := List.pairwise_iff_getElem.1 (List.pairwise_map.1 hnames) j i (Nat.lt_trans hj hlt) hlt hj
  exact hij (beq_iff_eq.1 heq)

theorem add_eq_ok_iff : b.add p = .ok (i, b') ↔
    p.name ∉ b.toList.map Property.name ∧ b.size < capacity ∧ i = b.size ∧ b' = ⟨b.toList ++ [p]⟩ := by
  rw [add, ite_error_eq_ok_iff, Bool.not_eq_true, Option.isSome_eq_false_iff, Option.isNone_iff_eq_none]
  cases Nat.lt_or_ge b.size capacity with
  | inl hlt =>
    rw [find?_eq_none_iff (Nat.le_of_lt hlt), number?_of_lt hlt]
    simp only [Except.ok.injEq, Prod.mk.injEq, eq_comm, hlt, true_and]
  | inr hle =>
    rw [number?_of_le hle]
    simp only [reduceCtorEq, and_false, Nat.not_lt.2 hle, false_and]

/-- What additions to an empty bag returned, each with its property, and the bag they made. -/
inductive BuiltBy : List (Nat × Property) → PropertyBag → Prop
  | empty : BuiltBy [] {}
  | add {es : List (Nat × Property)} {b b' : PropertyBag} {p : Property} {i : Nat} (hb : BuiltBy es b)
      (h : b.add p = .ok (i, b')) : BuiltBy (es ++ [(i, p)]) b'

theorem builtBy_iff : BuiltBy es b ↔
    (b.toList.map Property.name).Nodup ∧ b.size ≤ capacity ∧ es = numbered b.toList 0 := by
  constructor
  · intro h
    induction h with
    | empty => exact ⟨List.nodup_nil, Nat.zero_le _, rfl⟩
    | add hb h ih =>
      obtain ⟨hnames, -, rfl⟩ := ih
      obtain ⟨hnew, hlt, rfl, rfl⟩ := add_eq_ok_iff.1 h
      refine ⟨nodup_names_concat.2 ⟨hnew, hnames⟩, ?_, numbered_concat.symm⟩
      rw [size, List.length_append]
      exact hlt
  · obtain ⟨ps⟩ := b
    rintro ⟨hnames, hfits, rfl⟩
    induction ps using List.reverseRecOn with
    | nil => exact .empty
    | append_singleton ps p ih =>
      obtain ⟨hnew, hnames⟩ := nodup_names_concat.1 hnames
      rw [size, List.length_append] at hfits
      have hadd : add ⟨ps⟩ p = .ok (ps.length, ⟨ps ++ [p]⟩) := add_eq_ok_iff.2 ⟨hnew, hfits, rfl, rfl⟩
      rw [numbered_concat]
      exact .add (ih hnames (Nat.le_of_lt hfits)) hadd

namespace Listing

theorem next?_nil (h : n + 1 < capacity) : next? ⟨n, []⟩ = .ok none := by
  rw [next?, number?_of_lt h]

theorem next?_cons (h : n + 1 < capacity) : next? ⟨n, p :: ps⟩ = .ok (some ((n, p), ⟨n + 1, ps⟩)) := by
  rw [next?, number?_of_lt h]

theorem next?_last (h : capacity ≤ n + 1) : next? ⟨n, ps⟩ = .error .numberingOverflow := by
  rw [next?, number?_of_le h]

theorem take_succ_nil (h : n + 1 < capacity) : take (k + 1) ⟨n, []⟩ = .ok [] := by
  rw [take, next?_nil h]
  rfl

theorem take_succ_cons (h : n + 1 < capacity) :
    take (k + 1) ⟨n, p :: ps⟩ = ((n, p) :: ·) <$> take k ⟨n + 1, ps⟩ := by
  rw [take, next?_cons h]
  rfl

theorem take_succ_last (h : capacity ≤ n + 1) : take (k + 1) ⟨n, ps⟩ = .error .numberingOverflow := by
  rw [take, next?_last h]
  rfl

/-- Every step counts, also the one that finds nothing left. -/
theorem take_eq (hn : n < capacity) (hk : k ≤ ps.length + 1) : take k ⟨n, ps⟩ =
    if n + k < capacity then .ok ((numbered ps n).take k) else .error .numberingOverflow := by
  induction k generalizing n ps with
  | zero => exact (if_pos hn).symm
  | succ k ih =>
    cases Nat.lt_or_ge (n + 1) capacity with
    | inr hlast => rw [take_succ_last hlast, if_neg (by omega)]
    | inl hnext =>
      cases ps with
      | nil =>
        obtain rfl : k = 0 := Nat.le_zero.1 (Nat.le_of_succ_le_succ hk)
        rw [take_succ_nil hnext, if_pos hnext]
        rfl
      | cons p ps =>
        have hsum : n + 1 + k = n + (k + 1) := by omega
        rw [take_succ_cons hnext, ih hnext (Nat.le_of_succ_le_succ hk), hsum, numbered_cons, List.take_succ_cons]
        split
        next => rfl
        next => rfl

theorem toEnd_eq (l : Listing) : l.toEnd = match l.next? with
    | .error fault => .error fault
    | .ok none => .ok []
    | .ok (some (e, l')) => (e :: ·) <$> l'.toEnd := by
  rw [toEnd]
  split
  next heq => rw [heq]
  next heq => rw [heq]
  next heq => rw [heq]

theorem toEnd_eq_take : toEnd ⟨n, ps⟩ = take (ps.length + 1) ⟨n, ps⟩ := by
  induction ps generalizing n with
  | nil =>
    cases Nat.lt_or_ge (n + 1) capacity with
    | inl hnext => rw [take_succ_nil hnext, toEnd_eq, next?_nil hnext]
    | inr hlast => rw [take_succ_last hlast, toEnd_eq, next?_last hlast]
  | cons p ps ih =>
    cases Nat.lt_or_ge (n + 1) capacity with
    | inl hnext => rw [List.length_cons, take_succ_cons hnext, toEnd_eq, next?_cons hnext, ← ih]
    | inr hlast => rw [take_succ_last hlast, toEnd_eq, next?_last hlast]

end Listing

/-- The numbers that these additions returned are the bag's own: every property is there once, in its turn, and is
found and got under its number. -/
structure NumbersMatch (b : PropertyBag) (es : List (Nat × Property)) : Prop where
  all : es.map Prod.snd = b.toList
  once : (es.map (·.2.name)).Nodup
  found : ∀ e ∈ es, b.find? e.2.name = some e.1
  got : ∀ e ∈ es, b.get? e.1 = some e.2
  fits : b.size ≤ capacity

theorem BuiltBy.numbersMatch (h : BuiltBy es b) : NumbersMatch b es := by
  obtain ⟨hnames, hfits, rfl⟩ := builtBy_iff.1 h
  constructor
  case all => exact map_snd_numbered
  case once =>
    have hsplit : (numbered b.toList 0).map (·.2.name) = ((numbered b.toList 0).map Prod.snd).map Property.name :=
      List.map_map.symm
    rw [hsplit, map_snd_numbered]
    exact hnames
  case found =>
    intro e he
    exact find?_of_getElem? hnames hfits (mem_numbered_iff.1 he)
  case got =>
    intro e he
    exact mem_numbered_iff.1 he
  case fits => exact hfits

theorem BuiltBy.length_eq (h : BuiltBy es b) : es.length = b.size := by
  obtain ⟨-, -, rfl⟩ := builtBy_iff.1 h
  exact length_numbered

theorem BuiltBy.take_listing (h : BuiltBy es b) (hk : k ≤ b.size + 1) :
    b.listing.take k = if k < capacity then .ok (es.take k) else .error .numberingOverflow := by
  obtain ⟨-, -, rfl⟩ := builtBy_iff.1 h
  rw [listing, Listing.take_eq (by decide) hk, Nat.zero_add]

theorem BuiltBy.entries_eq (h : BuiltBy es b) :
    b.entries = if b.size < capacity then .ok es else .error .numberingOverflow := by
  rw [entries, h.take_listing (Nat.le_succ _), ← h.length_eq, List.take_length]

theorem BuiltBy.toEnd_eq (h : BuiltBy es b) :
    b.listing.toEnd = if b.size + 1 < capacity then .ok es else .error .numberingOverflow := by
  have hsteps : b.listing.toEnd = b.listing.take (b.size + 1) := Listing.toEnd_eq_take
  rw [hsteps, h.take_listing (Nat.le_refl _), ← h.length_eq, List.take_of_length_le (Nat.le_succ _)]

/-- All that was added is listed under the numbers that the additions returned, unless the bag is full. A listing that
looks for its own end needs a bag that is two properties short of full. -/
theorem BuiltBy.listed_unless_full (h : BuiltBy es b) :
    NumbersMatch b es ∧
    b.entries = (if b.size < capacity then .ok es else .error .numberingOverflow) ∧
    b.listing.toEnd = (if b.size + 1 < capacity then .ok es else .error .numberingOverflow) ∧
    ∀ k ≤ b.size, k < capacity → b.listing.take k = .ok (es.take k) := by
  refine ⟨h.numbersMatch, h.entries_eq, h.toEnd_eq, ?_⟩
  intro k hk hlt
  rw [h.take_listing (Nat.le_succ_of_le hk), if_pos hlt]

/-- So many integers, named by their positions. -/
def fillers (n : Nat) : List Property := (List.range n).map fun i => .create ("p" ++ toString i) .int {}

theorem length_fillers : (fillers n).length = n := by
  rw [fillers, List.length_map, List.length_range]

theorem nodup_names_fillers : ((fillers n).map Property.name).Nodup := by
  rw [fillers, List.map_map]
  apply List.nodup_range.map
  intro i j heq
  have htext : i.repr = j.repr := (String.append_right_inj "p").1 heq
  exact Nat.repr_inj.1 htext

theorem builtBy_fillers (h : n ≤ capacity) : BuiltBy (numbered (fillers n) 0) ⟨fillers n⟩ :=
  builtBy_iff.2 ⟨nodup_names_fillers, Nat.le_trans (Nat.le_of_eq length_fillers) h, rfl⟩

/-- One property short of a full bag, a listing that has to see its end is the one that fails. -/
theorem nearlyFull_listed : BuiltBy (numbered (fillers 255) 0) ⟨fillers 255⟩ ∧
    entries ⟨fillers 255⟩ = .ok (numbered (fillers 255) 0) ∧
    (listing ⟨fillers 255⟩).toEnd = .error .numberingOverflow := by
  have hsize : size ⟨fillers 255⟩ = 255 := length_fillers
  have hbuilt := builtBy_fillers (n := 255) (by decide)
  obtain ⟨-, hentries, hend, -⟩ := hbuilt.listed_unless_full
  rw [hsize] at hentries hend
  exact ⟨hbuilt, hentries, hend⟩

/-- The last of 256 properties has a number that it is found and got by, and no listing comes to it. -/
theorem not_listed_full : BuiltBy (numbered (fillers 256) 0) ⟨fillers 256⟩ ∧
    NumbersMatch ⟨fillers 256⟩ (numbered (fillers 256) 0) ∧
    entries ⟨fillers 256⟩ = .error .numberingOverflow ∧
    (listing ⟨fillers 256⟩).toEnd = .error .numberingOverflow := by
  have hsize : size ⟨fillers 256⟩ = 256 := length_fillers
  have hbuilt := builtBy_fillers (n := 256) (by decide)
  have hentries := hbuilt.entries_eq
  have hend := hbuilt.toEnd_eq
  rw [hsize] at hentries hend
  exact ⟨hbuilt, hbuilt.numbersMatch, hentries, hend⟩

end PropertyBag

end FlowGraph
