import FlowGraph.Token
import FlowGraph.Proofs.Cutting

/-!
# Pieces

To its users a token is a piece: the text that leads, the word, and the text that trails. Pieces have no buffer, no
lengths and no offset. The commands on tokens are here carried out on both, tokens and pieces.
-/

namespace FlowGraph

structure Piece where
  kind : TokenKind
  lead : String := ""
  word : String := ""
  trail : String := ""
deriving DecidableEq, Repr

namespace Piece

def text (p : Piece) : String := p.lead ++ p.word ++ p.trail

def ofSource (kind : TokenKind) (source : String) (offset size : Nat) : Option Piece := do
  let (_, rest) ← Text.split? source offset
  let (word, _) ← Text.split? rest size
  return { kind, word }

def moveWordStart (p : Piece) (amount : Int) : Option Piece :=
  let start := p.lead.utf8ByteSize + amount
  if start < 0 then none
  else (Text.split? (p.lead ++ p.word) start.toNat).map fun (lead, word) => { p with lead, word }

def moveWordEnd (p : Piece) (amount : Int) : Option Piece :=
  let stop := p.word.utf8ByteSize + amount
  if stop < 0 then none
  else (Text.split? (p.word ++ p.trail) stop.toNat).map fun (word, trail) => { p with word, trail }

def takeSurroundings (p source : Piece) : Piece × Piece :=
  ({ p with lead := source.lead ++ p.lead, trail := p.trail ++ source.trail },
    { kind := source.kind, word := source.word })

theorem ofSource_eq_some_iff {kind : TokenKind} {source : String} {offset size : Nat} {p : Piece} :
    ofSource kind source offset size = some p ↔
      ∃ before after, source = before ++ p.word ++ after ∧ before.utf8ByteSize = offset ∧
        p.word.utf8ByteSize = size ∧ p = { kind, word := p.word } := by
  simp only [ofSource, bind, Option.bind_eq_some_iff, Prod.exists, Text.split?_eq_some_iff, pure, Option.some.injEq]
  constructor
  · rintro ⟨before, rest, ⟨rfl, rfl⟩, word, after, ⟨rfl, rfl⟩, rfl⟩
    exact ⟨before, after, String.append_assoc.symm, rfl, rfl, rfl⟩
  · rintro ⟨before, after, rfl, rfl, rfl, hp⟩
    exact ⟨before, p.word ++ after, ⟨String.append_assoc, rfl⟩, p.word, after, ⟨rfl, rfl⟩, hp.symm⟩

theorem isSome_ofSource (kind : TokenKind) (source : String) (offset size : Nat) :
    (ofSource kind source offset size).isSome =
      (Text.isBoundary source offset && Text.isBoundary source (offset + size)) := by
  rw [ofSource, ← Text.isSome_split? source offset]
  cases hcut : Text.split? source offset with
  | none => rfl
  | some r =>
    obtain ⟨before, rest⟩ := r
    obtain ⟨rfl, rfl⟩ := Text.split?_eq_some_iff.1 hcut
    rw [Text.isBoundary_append_right, ← Text.isSome_split?]
    cases hword : Text.split? rest size <;> simp [hword]

/-- A move keeps the text of the two parts it shifts, and their common boundary goes `amount` bytes on. -/
theorem moveWordStart_eq_some_iff {p q : Piece} {amount : Int} :
    p.moveWordStart amount = some q ↔
      q.lead ++ q.word = p.lead ++ p.word ∧ (q.lead.utf8ByteSize : Int) = p.lead.utf8ByteSize + amount ∧
        q.trail = p.trail ∧ q.kind = p.kind := by
  rw [moveWordStart]
  split
  next hneg =>
    simp only [reduceCtorEq, false_iff]
    rintro ⟨-, hsize, -, -⟩
    omega
  next hle =>
    simp only [Option.map_eq_some_iff, Prod.exists, Text.split?_eq_some_iff]
    constructor
    · rintro ⟨a, b, ⟨htext, hsize⟩, rfl⟩
      exact ⟨htext.symm, by simp only; omega, rfl, rfl⟩
    · rintro ⟨htext, hsize, htrail, hkind⟩
      exact ⟨q.lead, q.word, ⟨htext.symm, by omega⟩, by rw [← htrail, ← hkind]⟩

theorem moveWordEnd_eq_some_iff {p q : Piece} {amount : Int} :
    p.moveWordEnd amount = some q ↔
      q.word ++ q.trail = p.word ++ p.trail ∧ (q.word.utf8ByteSize : Int) = p.word.utf8ByteSize + amount ∧
        q.lead = p.lead ∧ q.kind = p.kind := by
  rw [moveWordEnd]
  split
  next hneg =>
    simp only [reduceCtorEq, false_iff]
    rintro ⟨-, hsize, -, -⟩
    omega
  next hle =>
    simp only [Option.map_eq_some_iff, Prod.exists, Text.split?_eq_some_iff]
    constructor
    · rintro ⟨a, b, ⟨htext, hsize⟩, rfl⟩
      exact ⟨htext.symm, by simp only; omega, rfl, rfl⟩
    · rintro ⟨htext, hsize, hlead, hkind⟩
      exact ⟨q.word, q.trail, ⟨htext.symm, by omega⟩, by rw [← hlead, ← hkind]⟩

end Piece

namespace Token

inductive Making
  | ofKind (kind : TokenKind)
  | owned (kind : TokenKind) (word : String)
  | literal (value : Value)
  | ofSource (kind : TokenKind) (source : String) (offset size : Nat)

inductive Edit
  | moveWordStart (amount : Int)
  | moveWordEnd (amount : Int)
  | pushFront (text : String)
  | pushBack (text : String)
  | replaceWord (word : String)
  | setKind (kind : TokenKind)
  | clear

/-- Tokens are named by their places on the bench, in the order they were made. -/
inductive Command
  | make (making : Making)
  | clone (place : Nat)
  | edit (place : Nat) (edit : Edit)
  | takeSurroundings (place source : Nat)

def make : Making → Except TokenError Token
  | .ofKind kind => .ok (ofKind kind)
  | .owned kind word => .ok (owned kind word)
  | .literal value => .ok (literal value)
  | .ofSource kind source offset size => ofSource kind source offset size

def edit (t : Token) : Edit → Except TokenError Token
  | .moveWordStart amount => t.moveWordStart amount
  | .moveWordEnd amount => t.moveWordEnd amount
  | .pushFront text => .ok (t.pushFront text)
  | .pushBack text => .ok (t.pushBack text)
  | .replaceWord word => .ok (t.replaceWord word)
  | .setKind kind => .ok { t with kind }
  | .clear => .ok t.clear

end Token

namespace Piece

def make : Token.Making → Option Piece
  | .ofKind kind => some { kind }
  | .owned kind word => some { kind, word }
  | .literal value => some { kind := .literal value.type, word := value.text }
  | .ofSource kind source offset size => ofSource kind source offset size

def edit (p : Piece) : Token.Edit → Option Piece
  | .moveWordStart amount => p.moveWordStart amount
  | .moveWordEnd amount => p.moveWordEnd amount
  | .pushFront text => some { p with lead := text ++ p.lead }
  | .pushBack text => some { p with trail := p.trail ++ text }
  | .replaceWord word => some { p with word }
  | .setKind kind => some { p with kind }
  | .clear => some { kind := p.kind }

end Piece

structure Craft (α : Type) where
  make (making : Token.Making) : Option α
  edit (a : α) (edit : Token.Edit) : Option α
  takeSurroundings (a source : α) : α × α

def Token.craft : Craft Token where
  make making := (make making).toOption
  edit t e := (t.edit e).toOption
  takeSurroundings := takeSurroundings

def Piece.craft : Craft Piece where
  make := make
  edit := edit
  takeSurroundings := takeSurroundings

namespace Craft

variable {α : Type}

def perform (craft : Craft α) (bench : List α) : Token.Command → Option (List α)
  | .make making => (craft.make making).map fun a => bench ++ [a]
  | .clone i => bench[i]?.map fun a => bench ++ [a]
  | .edit i e => bench[i]?.bind fun a => (craft.edit a e).map (bench.set i)
  | .takeSurroundings i j =>
    if i = j then none
    else bench[i]?.bind fun a => bench[j]?.map fun b =>
      (bench.set i (craft.takeSurroundings a b).1).set j (craft.takeSurroundings a b).2

/-- Whether each command was carried out, and the bench afterwards. A command that is refused changes nothing. -/
def run (craft : Craft α) : List α → List Token.Command → List Bool × List α
  | bench, [] => ([], bench)
  | bench, c :: rest =>
    let next := craft.perform bench c
    let (answers, last) := run craft (next.getD bench) rest
    (next.isSome :: answers, last)

end Craft

end FlowGraph
