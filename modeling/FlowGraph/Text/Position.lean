/-!
# Byte positions in text

Positions count the bytes of UTF-8. A position is a boundary when no character straddles it; text is only
ever cut at boundaries.
-/

namespace FlowGraph.Text

def byteSize : List Char → Nat
  | [] => 0
  | c :: cs => c.utf8Size + byteSize cs

/-- Cuts at a byte position. There is no cut inside a character or beyond the end. -/
def cut? : List Char → Nat → Option (List Char × List Char)
  | cs, 0 => some ([], cs)
  | [], _ + 1 => none
  | c :: cs, n + 1 =>
    if c.utf8Size ≤ n + 1 then (cut? cs (n + 1 - c.utf8Size)).map fun (a, b) => (c :: a, b)
    else none

def isBoundary (s : String) (position : Nat) : Bool := (cut? s.toList position).isSome

/-- The `len` bytes from `start` on, or nothing when they cannot be cut out. -/
def slice (s : String) (start len : Nat) : String :=
  match cut? s.toList start with
  | none => ""
  | some (_, rest) =>
    match cut? rest len with
    | none => ""
    | some (part, _) => String.ofList part

theorem byteSize_cons (c : Char) (cs : List Char) : byteSize (c :: cs) = c.utf8Size + byteSize cs :=
  rfl

theorem byteSize_append (a b : List Char) : byteSize (a ++ b) = byteSize a + byteSize b := by
  induction a with
  | nil => simp [byteSize]
  | cons c a ih => simp only [List.cons_append, byteSize_cons, ih]; omega

/-- A cut splits the text and lies where the first part ends. -/
theorem cut?_eq_some_iff {cs : List Char} {n : Nat} {a b : List Char} :
    cut? cs n = some (a, b) ↔ cs = a ++ b ∧ byteSize a = n := by
  induction cs generalizing n a with
  | nil =>
    cases n with
    | zero =>
      simp only [cut?, Option.some.injEq, Prod.mk.injEq]
      constructor
      · rintro ⟨rfl, rfl⟩; simp [byteSize]
      · rintro ⟨h, -⟩; simp_all
    | succ n =>
      simp only [cut?, reduceCtorEq, false_iff, not_and]
      intro h
      have : a = [] := by simp_all
      simp [this, byteSize]
  | cons c cs ih =>
    cases n with
    | zero =>
      simp only [cut?, Option.some.injEq, Prod.mk.injEq]
      constructor
      · rintro ⟨rfl, rfl⟩; simp [byteSize]
      · rintro ⟨h, hs⟩
        cases a with
        | nil => simp_all
        | cons d a =>
          have := Char.utf8Size_pos d
          rw [byteSize_cons] at hs
          omega
    | succ n =>
      have hc := Char.utf8Size_pos c
      simp only [cut?]
      split
      next hle =>
        rw [Option.map_eq_some_iff]
        constructor
        · rintro ⟨⟨a', b'⟩, h, heq⟩
          obtain ⟨rfl, rfl⟩ := Prod.mk.inj heq
          obtain ⟨rfl, hs⟩ := ih.1 h
          refine ⟨rfl, ?_⟩
          rw [byteSize_cons, hs]
          omega
        · rintro ⟨h, hs⟩
          cases a with
          | nil => simp [byteSize] at hs
          | cons d a =>
            obtain ⟨rfl, rfl⟩ := List.cons.inj h
            rw [byteSize_cons] at hs
            exact ⟨(a, b), ih.2 ⟨rfl, by omega⟩, rfl⟩
      next hgt =>
        simp only [reduceCtorEq, false_iff, not_and]
        intro h hs
        cases a with
        | nil => simp [byteSize] at hs
        | cons d a =>
          obtain ⟨rfl, rfl⟩ := List.cons.inj h
          rw [byteSize_cons] at hs
          omega

end FlowGraph.Text
