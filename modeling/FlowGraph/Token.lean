import FlowGraph.Value
import FlowGraph.Text.Position

/-!
# Tokens

A token is a span of text in three regions: the word, and what leads and trails it. A token read from a
source shares the source's text; the first edit copies the token's own span into a buffer it owns, so the
source is never written to. All lengths and offsets are in bytes.
-/

namespace FlowGraph

inductive TokenKind
  | none
  | ignore
  | identifier
  | literal (type : ValueType)
  | operator
  | typeKeyword (type : ValueType)
  | ifKeyword
  | elseKeyword
  | forKeyword
  | whileKeyword
  | endOfInstruction
  | scopeBegin
  | scopeEnd
deriving DecidableEq, Repr

inductive Buffer
  | empty
  | shared (text : String)
  | owned (text : String)
deriving DecidableEq, Repr

namespace Buffer

def text : Buffer → String
  | empty => ""
  | shared s => s
  | owned s => s

end Buffer

inductive TokenError
  | outOfSource (offset stop sourceSize : Nat)
  | notCharBoundary (position : Nat)
  | outOfToken (amount : Int)
deriving DecidableEq, Repr

def TokenError.message : TokenError → String
  | outOfSource offset stop sourceSize =>
    "span " ++ toString offset ++ ".." ++ toString stop ++ " is outside a source of "
      ++ toString sourceSize ++ " bytes"
  | notCharBoundary position => "byte " ++ toString position ++ " is inside a UTF-8 character"
  | outOfToken amount => "moving a word boundary by " ++ toString amount ++ " leaves the token"

/-- The regions follow each other in the buffer from `offset` on. -/
structure Token where
  kind : TokenKind := .none
  buffer : Buffer := .empty
  offset : Nat := 0
  leadSize : Nat := 0
  wordSize : Nat := 0
  trailSize : Nat := 0
deriving DecidableEq, Repr

namespace Token

def ofKind (kind : TokenKind) : Token := { kind }

/-- A token that is all word, in a buffer of its own. -/
def owned (kind : TokenKind) (word : String) : Token :=
  { kind, buffer := .owned word, wordSize := word.utf8ByteSize }

/-- The greatest position that can be named. -/
def maxPosition : Nat := 0xffffffffffffffff

/-- A token that is all word: `size` bytes of a shared source. Both ends have to be boundaries inside the
source. -/
def ofSource (kind : TokenKind) (source : String) (offset size : Nat) : Except TokenError Token :=
  let stop := offset + size
  if source.utf8ByteSize < stop then
    .error (.outOfSource offset (min stop maxPosition) source.utf8ByteSize)
  else if !Text.isBoundary source offset then .error (.notCharBoundary offset)
  else if !Text.isBoundary source stop then .error (.notCharBoundary stop)
  else .ok { kind, buffer := .shared source, offset, wordSize := size }

def literal (value : Value) : Token := owned (.literal value.type) value.text

def size (t : Token) : Nat := t.leadSize + t.wordSize + t.trailSize

def isEmpty (t : Token) : Bool := t.size == 0

def hasBuffer (t : Token) : Bool := t.buffer != .empty

def isOwned (t : Token) : Bool :=
  match t.buffer with
  | .owned _ => true
  | _ => false

def slice (t : Token) (start size : Nat) : String :=
  Text.slice t.buffer.text (t.offset + start) size

def lead (t : Token) : String := t.slice 0 t.leadSize

def word (t : Token) : String := t.slice t.leadSize t.wordSize

def trail (t : Token) : String := t.slice (t.leadSize + t.wordSize) t.trailSize

def text (t : Token) : String := t.slice 0 t.size

/-- Refuses a position, relative to the token's start, inside a character. -/
def checkBoundary (t : Token) (position : Nat) : Except TokenError Unit :=
  if Text.isBoundary t.buffer.text (t.offset + position) then .ok ()
  else .error (.notCharBoundary (t.offset + position))

/-- Moves the word's start; the lead takes up the difference. -/
def moveWordStart (t : Token) (amount : Int) : Except TokenError Token :=
  let lead := t.leadSize + amount
  let word := t.wordSize - amount
  if lead < 0 ∨ word < 0 then .error (.outOfToken amount)
  else do
    t.checkBoundary lead.toNat
    return { t with leadSize := lead.toNat, wordSize := word.toNat }

/-- Moves the word's end; the trail takes up the difference. -/
def moveWordEnd (t : Token) (amount : Int) : Except TokenError Token :=
  let word := t.wordSize + amount
  let trail := t.trailSize - amount
  if word < 0 ∨ trail < 0 then .error (.outOfToken amount)
  else do
    t.checkBoundary (t.leadSize + word.toNat)
    return { t with wordSize := word.toNat, trailSize := trail.toNat }

def rebuffer (t : Token) (text : String) : Token := { t with buffer := .owned text, offset := 0 }

def pushFront (t : Token) (text : String) : Token :=
  { t.rebuffer (text ++ t.text) with leadSize := text.utf8ByteSize + t.leadSize }

def pushBack (t : Token) (text : String) : Token :=
  { t.rebuffer (t.text ++ text) with trailSize := t.trailSize + text.utf8ByteSize }

def replaceWord (t : Token) (word : String) : Token :=
  { t.rebuffer (t.lead ++ word ++ t.trail) with wordSize := word.utf8ByteSize }

/-- The token left with its word alone, on the buffer it had. -/
def bareWord (t : Token) : Token :=
  { t with offset := t.offset + t.leadSize, leadSize := 0, trailSize := 0 }

/-- Puts the lead and the trail of `source` around this token, and leaves `source` its bare word. -/
def takeSurroundings (t source : Token) : Token × Token :=
  ((t.pushFront source.lead).pushBack source.trail, source.bareWord)

def clear (t : Token) : Token := ofKind t.kind

end Token

end FlowGraph
