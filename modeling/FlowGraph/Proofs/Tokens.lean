import FlowGraph.Proofs.Outcome
import FlowGraph.Proofs.Pieces

/-!
# Tokens as three texts

A token holds lengths and an offset into a buffer that it may share, may own, and may fill only in part. Whatever
commands are carried out, tokens and pieces refuse the same ones, and every token shows the texts of its piece.
-/

namespace FlowGraph

namespace Token

def ownText? (t : Token) : Option String :=
  Text.truncate? (if t.isOwned && t.offset == 0 then t.buffer.text else t.text) t.size

def surroundInPlace? (t : Token) (lead trail : String) : Option Token :=
  t.ownText?.map fun own =>
    { t.rebuffer (lead ++ own ++ trail) with
      leadSize := t.leadSize + lead.utf8ByteSize, trailSize := t.trailSize + trail.utf8ByteSize }

def replaceWordInPlace? (t : Token) (word : String) : Option Token := do
  let (front, back) ← Text.split? (← t.ownText?) (t.leadSize + t.wordSize)
  let (lead, _) ← Text.split? front t.leadSize
  return { t.rebuffer (lead ++ word ++ back) with wordSize := word.utf8ByteSize }

end Token

namespace Token

/-- The texts, lengths and boundaries of a token are those of the piece. -/
structure Shows (t : Token) (p : Piece) : Prop where
  kind : t.kind = p.kind
  lead : t.lead = p.lead
  word : t.word = p.word
  trail : t.trail = p.trail
  text : t.text = p.lead ++ p.word ++ p.trail
  leadSize : t.leadSize = p.lead.utf8ByteSize
  wordSize : t.wordSize = p.word.utf8ByteSize
  trailSize : t.trailSize = p.trail.utf8ByteSize
  inside : t.offset + t.size ≤ t.buffer.text.utf8ByteSize
  boundaries : ∀ n ∈ [0, t.leadSize, t.leadSize + t.wordSize, t.size],
    Text.isBoundary t.buffer.text (t.offset + n) = true

/-- How one end of the word moves. It can go as far as the regions on both its sides reach, to any boundary of the
text there; the text stays the same, and the opposite move leads back. -/
structure MovesBoundary (move : Token → Int → Except TokenError Token) (t : Token) (low place high : Nat) : Prop where
  succeeds (amount : Int) : (∃ u, move t amount = .ok u) ↔
    low ≤ place + amount ∧ place + amount ≤ high ∧ Text.isBoundary t.text (place + amount).toNat = true
  keeps (amount : Int) (u : Token) : move t amount = .ok u → u.text = t.text
  undone (amount : Int) (u : Token) : move t amount = .ok u → move u (-amount) = .ok t

/-- Carried out in the token's own buffer, the edits have the results that they have on texts. -/
structure EditsInPlace (t : Token) : Prop where
  ownText : t.ownText? = some t.text
  pushFront (text : String) : t.surroundInPlace? text "" = some (t.pushFront text)
  pushBack (text : String) : t.surroundInPlace? "" text = some (t.pushBack text)
  replaceWord (word : String) : t.replaceWordInPlace? word = some (t.replaceWord word)
  takeSurroundings (u : Token) : t.surroundInPlace? u.lead u.trail = some (t.takeSurroundings u).1

structure BufferHolds (t : Token) (p : Piece) : Prop where
  kind : t.kind = p.kind
  placed : ∃ before after, t.buffer.text = before ++ p.text ++ after ∧ before.utf8ByteSize = t.offset
  leadSize : t.leadSize = p.lead.utf8ByteSize
  wordSize : t.wordSize = p.word.utf8ByteSize
  trailSize : t.trailSize = p.trail.utf8ByteSize

variable {t u : Token} {p q : Piece}

namespace BufferHolds

theorem size (h : t.BufferHolds p) : t.size = p.text.utf8ByteSize := by
  rw [Token.size, Piece.text, String.utf8ByteSize_append, String.utf8ByteSize_append, h.leadSize, h.wordSize,
    h.trailSize]

theorem placed_part (h : t.BufferHolds p) {a s b : String} (hp : p.text = a ++ s ++ b) :
    ∃ before after, t.buffer.text = before ++ s ++ after ∧ before.utf8ByteSize = t.offset + a.utf8ByteSize := by
  obtain ⟨before, after, htext, hoffset⟩ := h.placed
  refine ⟨before ++ a, b ++ after, ?_, by rw [String.utf8ByteSize_append, hoffset]⟩
  rw [htext, hp]
  simp only [String.append_assoc]

theorem isBoundary (h : t.BufferHolds p) {a s b : String} (hp : p.text = a ++ s ++ b) {n : Nat}
    (hn : n ≤ s.utf8ByteSize) :
    Text.isBoundary t.buffer.text (t.offset + (a.utf8ByteSize + n)) = Text.isBoundary s n := by
  obtain ⟨before, after, htext, hbefore⟩ := h.placed_part hp
  rw [htext, ← Nat.add_assoc, ← hbefore, Text.isBoundary_surrounded hn]

/-- A boundary of the buffer inside a part of the piece is a place where the part can be cut. -/
theorem isBoundary_iff_cut (h : t.BufferHolds p) {a s b : String} (hp : p.text = a ++ s ++ b) {n : Nat}
    (hn : n ≤ s.utf8ByteSize) : Text.isBoundary t.buffer.text (t.offset + (a.utf8ByteSize + n)) = true ↔
      ∃ l r, s = l ++ r ∧ l.utf8ByteSize = n := by
  rw [h.isBoundary hp hn]
  exact Text.isBoundary_iff

theorem isBoundary_text (h : t.BufferHolds p) {n : Nat} (hn : n ≤ p.text.utf8ByteSize) :
    Text.isBoundary t.buffer.text (t.offset + n) = Text.isBoundary p.text n := by
  have hwellFormed := h.isBoundary (a := "") (b := "") (by rw [String.empty_append, String.append_empty]) hn
  rwa [show "".utf8ByteSize = 0 from rfl, Nat.zero_add] at hwellFormed

theorem slice (h : t.BufferHolds p) {a s b : String} (hp : p.text = a ++ s ++ b) :
    t.slice a.utf8ByteSize s.utf8ByteSize = s := by
  obtain ⟨before, after, htext, hbefore⟩ := h.placed_part hp
  rw [Token.slice, htext, ← hbefore, Text.slice_surrounded]

theorem lead (h : t.BufferHolds p) : t.lead = p.lead := by
  rw [Token.lead, h.leadSize]
  exact h.slice (a := "") (b := p.word ++ p.trail) (by rw [Piece.text, String.empty_append, String.append_assoc])

theorem word (h : t.BufferHolds p) : t.word = p.word := by
  rw [Token.word, h.leadSize, h.wordSize]
  exact h.slice rfl

theorem trail (h : t.BufferHolds p) : t.trail = p.trail := by
  rw [Token.trail, h.leadSize, h.wordSize, h.trailSize, ← String.utf8ByteSize_append]
  exact h.slice (b := "") (by rw [Piece.text, String.append_empty])

theorem text (h : t.BufferHolds p) : t.text = p.text := by
  rw [Token.text, h.size]
  exact h.slice (a := "") (b := "") (by rw [String.empty_append, String.append_empty])

theorem shows (h : t.BufferHolds p) : t.Shows p where
  kind := h.kind
  lead := h.lead
  word := h.word
  trail := h.trail
  text := h.text
  leadSize := h.leadSize
  wordSize := h.wordSize
  trailSize := h.trailSize
  inside := by
    obtain ⟨before, after, htext, hoffset⟩ := h.placed
    rw [htext, String.utf8ByteSize_append, String.utf8ByteSize_append, hoffset, h.size]
    exact Nat.le_add_right ..
  boundaries n hn := by
    have hsize := h.size
    have hlead : Text.isBoundary p.text t.leadSize = true := by
      rw [h.leadSize, Piece.text, String.append_assoc]
      exact Text.isBoundary_append ..
    have hword : Text.isBoundary p.text (t.leadSize + t.wordSize) = true := by
      rw [h.leadSize, h.wordSize, ← String.utf8ByteSize_append]
      exact Text.isBoundary_append ..
    have hall : Text.isBoundary p.text t.size = true := by
      rw [hsize]
      exact Text.isBoundary_iff.2 ⟨p.text, "", (String.append_empty).symm, rfl⟩
    have hnone : Text.isBoundary p.text 0 = true :=
      Text.isBoundary_iff.2 ⟨"", p.text, String.empty_append.symm, rfl⟩
    have hn : Text.isBoundary p.text n = true := by
      simp only [List.mem_cons, List.not_mem_nil, or_false] at hn
      rcases hn with rfl | rfl | rfl | rfl <;> assumption
    rw [h.isBoundary_text (Text.le_of_isBoundary hn), hn]

theorem of_owned (hkind : t.kind = p.kind) (hbuffer : t.buffer = .owned p.text) (hoffset : t.offset = 0)
    (hlead : t.leadSize = p.lead.utf8ByteSize) (hword : t.wordSize = p.word.utf8ByteSize)
    (htrail : t.trailSize = p.trail.utf8ByteSize) : t.BufferHolds p where
  kind := hkind
  placed := ⟨"", "", by rw [hbuffer, String.empty_append, String.append_empty]; rfl, by rw [hoffset]; rfl⟩
  leadSize := hlead
  wordSize := hword
  trailSize := htrail

end BufferHolds

theorem bufferHolds_ofKind (kind : TokenKind) : (ofKind kind).BufferHolds { kind } where
  kind := rfl
  placed := ⟨"", "", rfl, rfl⟩
  leadSize := rfl
  wordSize := rfl
  trailSize := rfl

theorem bufferHolds_owned (kind : TokenKind) (word : String) : (owned kind word).BufferHolds { kind, word } :=
  .of_owned rfl (by rw [Piece.text, String.empty_append, String.append_empty]; rfl) rfl rfl rfl rfl

theorem ofSource_eq_ok_iff {kind : TokenKind} {source : String} {offset size : Nat} :
    ofSource kind source offset size = .ok t ↔
      Text.isBoundary source offset = true ∧ Text.isBoundary source (offset + size) = true ∧
        t = { kind, buffer := .shared source, offset, wordSize := size } := by
  rw [ofSource]
  split
  next hsize =>
    refine ⟨fun h => by simp at h, fun ⟨_, hstop, _⟩ => ?_⟩
    exact absurd (Text.le_of_isBoundary hstop) (Nat.not_le.2 hsize)
  next =>
    cases Text.isBoundary source offset <;> cases Text.isBoundary source (offset + size) <;>
      simp [eq_comm]

theorem bufferHolds_ofSource (kind : TokenKind) (source : String) (offset size : Nat) :
    Option.Rel BufferHolds (ofSource kind source offset size).toOption (Piece.ofSource kind source offset size) := by
  have hsome := Piece.isSome_ofSource kind source offset size
  cases hp : Piece.ofSource kind source offset size with
  | some p =>
    obtain ⟨before, after, rfl, rfl, rfl, hword⟩ := Piece.ofSource_eq_some_iff.1 hp
    rw [hp, Option.isSome_some, eq_comm, Bool.and_eq_true] at hsome
    rw [ofSource_eq_ok_iff.2 ⟨hsome.1, hsome.2, rfl⟩, hword]
    refine .some ⟨rfl, ⟨before, after, ?_, rfl⟩, rfl, rfl, rfl⟩
    rw [Piece.text, String.empty_append, String.append_empty]
    rfl
  | none =>
    cases ht : ofSource kind source offset size with
    | error e => exact .none
    | ok t =>
      obtain ⟨hstart, hstop, -⟩ := ofSource_eq_ok_iff.1 ht
      rw [hp, hstart, hstop] at hsome
      cases hsome

variable {amount : Int}

theorem moveWordStart_eq_ok_iff :
    t.moveWordStart amount = .ok u ↔
      0 ≤ t.leadSize + amount ∧ amount ≤ t.wordSize ∧
        Text.isBoundary t.buffer.text (t.offset + (t.leadSize + amount).toNat) = true ∧
        u = { t with leadSize := (t.leadSize + amount).toNat, wordSize := (t.wordSize - amount).toNat } := by
  rw [moveWordStart]
  split
  next hout =>
    simp only [reduceCtorEq, false_iff]
    rintro ⟨hlead, hword, -⟩
    omega
  next hin =>
    have hlead : 0 ≤ t.leadSize + amount := by omega
    have hword : amount ≤ t.wordSize := by omega
    rw [checkBoundary]
    cases Text.isBoundary t.buffer.text (t.offset + (t.leadSize + amount).toNat) <;>
      simp [bind, Except.bind, pure, Except.pure, hlead, hword, eq_comm]

theorem moveWordEnd_eq_ok_iff :
    t.moveWordEnd amount = .ok u ↔
      0 ≤ t.wordSize + amount ∧ amount ≤ t.trailSize ∧
        Text.isBoundary t.buffer.text (t.offset + (t.leadSize + (t.wordSize + amount).toNat)) = true ∧
        u = { t with wordSize := (t.wordSize + amount).toNat, trailSize := (t.trailSize - amount).toNat } := by
  rw [moveWordEnd]
  split
  next hout =>
    simp only [reduceCtorEq, false_iff]
    rintro ⟨hword, htrail, -⟩
    omega
  next hin =>
    have hword : 0 ≤ t.wordSize + amount := by omega
    have htrail : amount ≤ t.trailSize := by omega
    rw [checkBoundary]
    cases Text.isBoundary t.buffer.text (t.offset + (t.leadSize + (t.wordSize + amount).toNat)) <;>
      simp [bind, Except.bind, pure, Except.pure, hword, htrail, eq_comm]

theorem BufferHolds.moveWordStart (h : t.BufferHolds p) (amount : Int) :
    Option.Rel BufferHolds (t.moveWordStart amount).toOption (p.moveWordStart amount) := by
  obtain ⟨before, after, htext, hoffset⟩ := h.placed
  have hlead := h.leadSize
  have hword := h.wordSize
  have hcut {n : Nat} (hn : n ≤ t.leadSize + t.wordSize) : Text.isBoundary t.buffer.text (t.offset + n) = true ↔
      ∃ a b, p.lead ++ p.word = a ++ b ∧ a.utf8ByteSize = n := by
    rw [hlead, hword, ← String.utf8ByteSize_append] at hn
    have hregion : p.text = "" ++ (p.lead ++ p.word) ++ p.trail := by rw [String.empty_append]; rfl
    have hpart := h.isBoundary_iff_cut hregion hn
    rwa [show "".utf8ByteSize = 0 from rfl, Nat.zero_add] at hpart
  cases hq : p.moveWordStart amount with
  | some q =>
    obtain ⟨hsame, hsize, htrail, hkind⟩ := Piece.moveWordStart_eq_some_iff.1 hq
    have hsum := congrArg String.utf8ByteSize hsame
    rw [String.utf8ByteSize_append, String.utf8ByteSize_append] at hsum
    have hqtext : q.text = p.text := by rw [Piece.text, hsame, htrail, Piece.text]
    have hstart := (hcut (n := (t.leadSize + amount).toNat) (by omega)).2 ⟨q.lead, q.word, hsame.symm, by omega⟩
    have hok : t.moveWordStart amount = .ok _ := moveWordStart_eq_ok_iff.2 ⟨by omega, by omega, hstart, rfl⟩
    rw [hok]
    refine .some ⟨h.kind.trans hkind.symm, ⟨before, after, by rw [hqtext]; exact htext, hoffset⟩, ?_, ?_, ?_⟩
    · simp only; omega
    · simp only; omega
    · rw [htrail]; exact h.trailSize
  | none =>
    cases hu : t.moveWordStart amount with
    | error e => exact .none
    | ok u =>
      obtain ⟨hlow, hhigh, hstart, -⟩ := moveWordStart_eq_ok_iff.1 hu
      obtain ⟨a, b, hab, hsize⟩ := (hcut (by omega)).1 hstart
      have hmoved : p.moveWordStart amount = some { p with lead := a, word := b } :=
        Piece.moveWordStart_eq_some_iff.2 ⟨hab.symm, by simp only; omega, rfl, rfl⟩
      rw [hq] at hmoved
      cases hmoved

theorem BufferHolds.moveWordEnd (h : t.BufferHolds p) (amount : Int) :
    Option.Rel BufferHolds (t.moveWordEnd amount).toOption (p.moveWordEnd amount) := by
  obtain ⟨before, after, htext, hoffset⟩ := h.placed
  have hlead := h.leadSize
  have hword := h.wordSize
  have htrail := h.trailSize
  have hcut {n : Nat} (hn : n ≤ t.wordSize + t.trailSize) :
      Text.isBoundary t.buffer.text (t.offset + (t.leadSize + n)) = true ↔
        ∃ a b, p.word ++ p.trail = a ++ b ∧ a.utf8ByteSize = n := by
    rw [hword, htrail, ← String.utf8ByteSize_append] at hn
    have hregion : p.text = p.lead ++ (p.word ++ p.trail) ++ "" := by
      rw [String.append_empty, Piece.text, String.append_assoc]
    rw [hlead]
    exact h.isBoundary_iff_cut hregion hn
  cases hq : p.moveWordEnd amount with
  | some q =>
    obtain ⟨hsame, hsize, hqlead, hkind⟩ := Piece.moveWordEnd_eq_some_iff.1 hq
    have hsum := congrArg String.utf8ByteSize hsame
    rw [String.utf8ByteSize_append, String.utf8ByteSize_append] at hsum
    have hqtext : q.text = p.text := by
      rw [Piece.text, String.append_assoc, hsame, hqlead, Piece.text, String.append_assoc]
    have hstop := (hcut (n := (t.wordSize + amount).toNat) (by omega)).2 ⟨q.word, q.trail, hsame.symm, by omega⟩
    have hok : t.moveWordEnd amount = .ok _ := moveWordEnd_eq_ok_iff.2 ⟨by omega, by omega, hstop, rfl⟩
    rw [hok]
    refine .some ⟨h.kind.trans hkind.symm, ⟨before, after, by rw [hqtext]; exact htext, hoffset⟩, ?_, ?_, ?_⟩
    · rw [hqlead]; exact h.leadSize
    · simp only; omega
    · simp only; omega
  | none =>
    cases hu : t.moveWordEnd amount with
    | error e => exact .none
    | ok u =>
      obtain ⟨hlow, hhigh, hstop, -⟩ := moveWordEnd_eq_ok_iff.1 hu
      obtain ⟨a, b, hab, hsize⟩ := (hcut (by omega)).1 hstop
      have hmoved : p.moveWordEnd amount = some { p with word := a, trail := b } :=
        Piece.moveWordEnd_eq_some_iff.2 ⟨hab.symm, by simp only; omega, rfl, rfl⟩
      rw [hq] at hmoved
      cases hmoved

theorem BufferHolds.pushFront (h : t.BufferHolds p) (text : String) :
    (t.pushFront text).BufferHolds { p with lead := text ++ p.lead } := by
  refine .of_owned h.kind ?_ rfl ?_ h.wordSize h.trailSize
  · simp only [Token.pushFront, rebuffer, h.text, Piece.text, String.append_assoc]
  · rw [String.utf8ByteSize_append, ← h.leadSize]
    rfl

theorem BufferHolds.pushBack (h : t.BufferHolds p) (text : String) :
    (t.pushBack text).BufferHolds { p with trail := p.trail ++ text } := by
  refine .of_owned h.kind ?_ rfl h.leadSize h.wordSize ?_
  · simp only [Token.pushBack, rebuffer, h.text, Piece.text, String.append_assoc]
  · rw [String.utf8ByteSize_append, ← h.trailSize]
    rfl

theorem BufferHolds.replaceWord (h : t.BufferHolds p) (word : String) :
    (t.replaceWord word).BufferHolds { p with word } := by
  refine .of_owned h.kind ?_ rfl h.leadSize rfl h.trailSize
  simp only [Token.replaceWord, rebuffer, h.lead, h.trail, Piece.text]

theorem BufferHolds.bareWord (h : t.BufferHolds p) : t.bareWord.BufferHolds { kind := p.kind, word := p.word } := by
  obtain ⟨before, after, htext, hoffset⟩ := h.placed
  refine ⟨h.kind, ⟨before ++ p.lead, p.trail ++ after, ?_, ?_⟩, rfl, h.wordSize, rfl⟩
  · simp only [Token.bareWord, htext, Piece.text, String.append_assoc, String.empty_append]
  · rw [String.utf8ByteSize_append, hoffset, ← h.leadSize]
    rfl

theorem BufferHolds.takeSurroundings (h : t.BufferHolds p) (hu : u.BufferHolds q) :
    (t.takeSurroundings u).1.BufferHolds (p.takeSurroundings q).1 ∧
      (t.takeSurroundings u).2.BufferHolds (p.takeSurroundings q).2 := by
  refine ⟨?_, hu.bareWord⟩
  rw [Token.takeSurroundings, hu.lead, hu.trail]
  exact (h.pushFront q.lead).pushBack q.trail

theorem BufferHolds.edit (h : t.BufferHolds p) (e : Edit) : Option.Rel BufferHolds (t.edit e).toOption (p.edit e) := by
  cases e with
  | moveWordStart amount => exact h.moveWordStart amount
  | moveWordEnd amount => exact h.moveWordEnd amount
  | pushFront text => exact .some (h.pushFront text)
  | pushBack text => exact .some (h.pushBack text)
  | replaceWord word => exact .some (h.replaceWord word)
  | setKind kind => exact .some ⟨rfl, h.placed, h.leadSize, h.wordSize, h.trailSize⟩
  | clear => exact .some (h.kind ▸ bufferHolds_ofKind t.kind)

theorem bufferHolds_make (m : Making) : Option.Rel BufferHolds (make m).toOption (Piece.make m) := by
  cases m with
  | ofKind kind => exact .some (bufferHolds_ofKind kind)
  | owned kind word => exact .some (bufferHolds_owned kind word)
  | literal value => exact .some (bufferHolds_owned (.literal value.type) value.text)
  | ofSource kind source offset size => exact bufferHolds_ofSource kind source offset size

theorem BufferHolds.movesBoundary_moveWordStart (h : t.BufferHolds p) :
    t.MovesBoundary Token.moveWordStart 0 t.leadSize (t.leadSize + t.wordSize) where
  succeeds amount := by
    simp only [moveWordStart_eq_ok_iff, exists_and_left, exists_eq, and_true, h.text]
    have hsize := h.size
    rw [Token.size] at hsize
    constructor
    · rintro ⟨hlow, hhigh, hstart⟩
      rw [h.isBoundary_text (by omega)] at hstart
      exact ⟨by omega, by omega, hstart⟩
    · rintro ⟨hlow, hhigh, hstart⟩
      rw [h.isBoundary_text (by omega)]
      exact ⟨by omega, by omega, hstart⟩
  keeps amount u hu := by
    have hrel := h.moveWordStart amount
    rw [hu] at hrel
    generalize hq : p.moveWordStart amount = y at hrel
    cases hrel with
    | @some _ q huq =>
      obtain ⟨hsame, -, htrail, -⟩ := Piece.moveWordStart_eq_some_iff.1 hq
      rw [huq.text, h.text, Piece.text, hsame, htrail, Piece.text]
  undone amount u hu := by
    obtain ⟨hlow, hhigh, -, rfl⟩ := moveWordStart_eq_ok_iff.1 hu
    have hback : ((t.leadSize + amount).toNat + -amount : Int).toNat = t.leadSize := by omega
    have hword : ((t.wordSize - amount).toNat - -amount : Int).toNat = t.wordSize := by omega
    refine moveWordStart_eq_ok_iff.2 ⟨by simp only; omega, by simp only; omega, ?_, ?_⟩
    · simp only [hback]
      exact h.shows.boundaries _ (by simp)
    · simp only [hback, hword]

theorem BufferHolds.movesBoundary_moveWordEnd (h : t.BufferHolds p) :
    t.MovesBoundary Token.moveWordEnd t.leadSize (t.leadSize + t.wordSize) t.size where
  succeeds amount := by
    simp only [moveWordEnd_eq_ok_iff, exists_and_left, exists_eq, and_true, h.text]
    have hsize := h.size
    rw [Token.size] at hsize ⊢
    have hplace (hlow : 0 ≤ t.wordSize + amount) :
        t.leadSize + (t.wordSize + amount).toNat = ((t.leadSize + t.wordSize : Nat) + amount).toNat := by omega
    constructor
    · rintro ⟨hlow, hhigh, hstop⟩
      rw [h.isBoundary_text (by omega), hplace hlow] at hstop
      exact ⟨by omega, by omega, hstop⟩
    · rintro ⟨hlow, hhigh, hstop⟩
      rw [h.isBoundary_text (by omega), hplace (by omega)]
      exact ⟨by omega, by omega, hstop⟩
  keeps amount u hu := by
    have hrel := h.moveWordEnd amount
    rw [hu] at hrel
    generalize hq : p.moveWordEnd amount = y at hrel
    cases hrel with
    | @some _ q huq =>
      obtain ⟨hsame, -, hlead, -⟩ := Piece.moveWordEnd_eq_some_iff.1 hq
      rw [huq.text, h.text, Piece.text, String.append_assoc, hsame, hlead, Piece.text, String.append_assoc]
  undone amount u hu := by
    obtain ⟨hlow, hhigh, -, rfl⟩ := moveWordEnd_eq_ok_iff.1 hu
    have hback : ((t.wordSize + amount).toNat + -amount : Int).toNat = t.wordSize := by omega
    have htrail : ((t.trailSize - amount).toNat - -amount : Int).toNat = t.trailSize := by omega
    refine moveWordEnd_eq_ok_iff.2 ⟨by simp only; omega, by simp only; omega, ?_, ?_⟩
    · simp only [hback]
      exact h.shows.boundaries _ (by simp)
    · simp only [hback, htrail]

theorem BufferHolds.ownText (h : t.BufferHolds p) : t.ownText? = some t.text := by
  rw [ownText?, h.text, h.size]
  split
  next hown =>
    obtain ⟨before, after, htext, hoffset⟩ := h.placed
    simp only [Bool.and_eq_true, beq_iff_eq] at hown
    obtain rfl : before = "" := String.utf8ByteSize_eq_zero_iff.1 (hoffset.trans hown.2)
    rw [htext, String.empty_append]
    exact Text.truncate?_append ..
  next =>
    have hall := Text.truncate?_append p.text ""
    rwa [String.append_empty] at hall

theorem BufferHolds.editsInPlace (h : t.BufferHolds p) : t.EditsInPlace where
  ownText := h.ownText
  pushFront text := by
    rw [surroundInPlace?, h.ownText, Option.map_some, String.append_empty, Token.pushFront, Nat.add_comm]
    rfl
  pushBack text := by
    rw [surroundInPlace?, h.ownText, Option.map_some, String.empty_append, Token.pushBack]
    rfl
  replaceWord word := by
    have hfront : Text.split? p.text (t.leadSize + t.wordSize) = some (p.lead ++ p.word, p.trail) := by
      rw [h.leadSize, h.wordSize, ← String.utf8ByteSize_append]
      exact Text.split?_append ..
    have hlead : Text.split? (p.lead ++ p.word) t.leadSize = some (p.lead, p.word) := by
      rw [h.leadSize]
      exact Text.split?_append ..
    simp only [replaceWordInPlace?, h.ownText, h.text, bind, Option.bind_some, hfront, hlead, pure]
    rw [Token.replaceWord, h.lead, h.trail]
  takeSurroundings u := by
    have hfront : (t.pushFront u.lead).text = u.lead ++ t.text := by
      rw [(h.pushFront u.lead).text, h.text]
      simp only [Piece.text, String.append_assoc]
    rw [surroundInPlace?, h.ownText, Option.map_some, Token.takeSurroundings, Token.pushBack, hfront, Nat.add_comm]
    rfl

theorem forall₂_set {ts : List Token} {ps : List Piece} (h : List.Forall₂ BufferHolds ts ps) (i : Nat)
    (hu : u.BufferHolds q) : List.Forall₂ BufferHolds (ts.set i u) (ps.set i q) := by
  induction h generalizing i with
  | nil => exact .nil
  | cons htp hrest ih =>
    cases i with
    | zero => exact .cons hu hrest
    | succ i => exact .cons htp (ih i)

theorem exists_bufferHolds {ts : List Token} {ps : List Piece} (h : List.Forall₂ BufferHolds ts ps) (ht : t ∈ ts) :
    ∃ p, t.BufferHolds p := by
  obtain ⟨i, hi⟩ := List.getElem?_of_mem ht
  have hrel := rel_getElem? h i
  rw [hi] at hrel
  generalize ps[i]? = y at hrel
  cases hrel with
  | some hbufferHolds => exact ⟨_, hbufferHolds⟩

theorem perform_rel {ts : List Token} {ps : List Piece} (h : List.Forall₂ BufferHolds ts ps) (c : Command) :
    Option.Rel (List.Forall₂ BufferHolds) (craft.perform ts c) (Piece.craft.perform ps c) := by
  cases c with
  | make m => exact rel_map (bufferHolds_make m) fun t p htp => List.rel_append h (.cons htp .nil)
  | clone i => exact rel_map (rel_getElem? h i) fun t p htp => List.rel_append h (.cons htp .nil)
  | edit i e =>
    exact rel_bind (rel_getElem? h i) fun t p htp => rel_map (htp.edit e) fun u q huq => forall₂_set h i huq
  | takeSurroundings i j =>
    rw [Craft.perform, Craft.perform]
    split
    next => exact .none
    next =>
      refine rel_bind (rel_getElem? h i) fun t p htp => rel_map (rel_getElem? h j) fun u q huq => ?_
      obtain ⟨htaken, hbare⟩ := htp.takeSurroundings huq
      exact forall₂_set (forall₂_set h i htaken) j hbare

theorem run_rel {ts : List Token} {ps : List Piece} (h : List.Forall₂ BufferHolds ts ps) (commands : List Command) :
    (craft.run ts commands).1 = (Piece.craft.run ps commands).1 ∧
      List.Forall₂ BufferHolds (craft.run ts commands).2 (Piece.craft.run ps commands).2 := by
  induction commands generalizing ts ps with
  | nil => exact ⟨rfl, h⟩
  | cons c rest ih =>
    have hstep := perform_rel h c
    rw [Craft.run, Craft.run]
    generalize craft.perform ts c = x at hstep
    generalize Piece.craft.perform ps c = y at hstep
    cases hstep with
    | some hnext =>
      obtain ⟨hanswers, hlast⟩ := ih hnext
      exact ⟨congrArg (true :: ·) hanswers, hlast⟩
    | none =>
      obtain ⟨hanswers, hlast⟩ := ih h
      exact ⟨congrArg (false :: ·) hanswers, hlast⟩

/-- Whatever commands are carried out on an empty bench, tokens refuse those that pieces refuse, each token shows the
texts of its piece and keeps the laws of moves and edits, and a part of a source makes a token exactly when both its
ends are boundaries inside the source. -/
theorem run_shows (commands : List Command) :
    (craft.run [] commands).1 = (Piece.craft.run [] commands).1 ∧
      List.Forall₂ Shows (craft.run [] commands).2 (Piece.craft.run [] commands).2 ∧
      (∀ t ∈ (craft.run [] commands).2,
        t.MovesBoundary moveWordStart 0 t.leadSize (t.leadSize + t.wordSize) ∧
          t.MovesBoundary moveWordEnd t.leadSize (t.leadSize + t.wordSize) t.size ∧ t.EditsInPlace) ∧
      ∀ kind source offset size, (∃ t, ofSource kind source offset size = .ok t) ↔
        Text.isBoundary source offset = true ∧ Text.isBoundary source (offset + size) = true := by
  obtain ⟨hanswers, hbufferHolds⟩ := run_rel .nil commands
  refine ⟨hanswers, hbufferHolds.imp fun _ _ h => h.shows, fun t ht => ?_, fun kind source offset size => ?_⟩
  · obtain ⟨p, h⟩ := exists_bufferHolds hbufferHolds ht
    exact ⟨h.movesBoundary_moveWordStart, h.movesBoundary_moveWordEnd, h.editsInPlace⟩
  · simp only [ofSource_eq_ok_iff, exists_and_left, exists_eq, and_true]

/-- The word of a token is cut down to one letter, and what is left over is put around an operator. The first letter
takes two bytes, and the word cannot start between them. -/
def operatorBetween : List Command :=
  [.make (.ofSource .identifier "aébc" 1 4), .clone 0, .edit 1 (.moveWordStart 1), .edit 1 (.moveWordStart 2),
    .edit 1 (.moveWordEnd (-1)), .make (.owned .operator "+"), .takeSurroundings 2 1]

theorem run_shows_operatorBetween :
    (craft.run [] operatorBetween).1 = [true, true, false, true, true, true, true] ∧
      ∃ t ∈ (craft.run [] operatorBetween).2, t.text = "é+c" ∧ t.MovesBoundary moveWordStart 0 2 3 ∧
        t.MovesBoundary moveWordEnd 2 3 4 ∧ t.EditsInPlace := by
  have hmem : ({ kind := .operator, buffer := .owned "é+c", leadSize := 2, wordSize := 1, trailSize := 1 } : Token) ∈
      (craft.run [] operatorBetween).2 := by decide +kernel
  exact ⟨by decide +kernel, _, hmem, by decide +kernel, (run_shows operatorBetween).2.2.1 _ hmem⟩

end Token

end FlowGraph
