import HdlGraph.Library.LineCol
import HdlGraph.Library.Unicode
import HdlGraph.Library.Walk

/-!
This module contains the tokenizer of the language server: a scan over the characters of a document,
and the tokens it finds, which are sent with relative positions.
-/

namespace HdlGraph
namespace Lsp

open Text Walk

-- The counters are `u32` in the source; none of them exceeds the number of characters
structure RawToken where
  line : Nat
  col : Nat
  length : Nat
  tokenType : Nat
  deriving DecidableEq, Repr

structure SemanticToken where
  deltaLine : Nat
  deltaStart : Nat
  length : Nat
  tokenType : Nat
  tokenModifiersBitset : Nat
  deriving DecidableEq, Repr

def keywords : List Text :=
  ["module", "endmodule", "input", "output", "inout", "wire", "reg", "logic", "always",
    "always_comb", "always_ff",
    "always_latch", "assign", "begin", "end", "if", "else", "case", "endcase", "for", "generate",
      "endgenerate",
    "function", "endfunction", "task", "endtask", "class", "endclass", "interface",
    "endinterface", "package",
    "endpackage", "typedef", "enum", "struct", "union", "parameter", "localparam", "import",
    "export", "virtual",
    "extends", "new", "this", "super", "return", "fork", "join", "wait", "repeat", "while",
    "forever", "initial",
    "posedge", "negedge", "edge", "or", "and", "nand", "nor", "xor", "xnor", "buf", "not",
    "integer", "real", "time",
    "string", "event", "chandle", "bit", "byte", "shortint", "int", "longint", "`ifdef", "`endif",
    "`else", "`elsif",
    "`define", "`include", "`ifndef", "`timescale", "`undef", "`line"].map String.toList

/-! ## The scan -/

structure Cursor where
  i : Nat
  line : Nat
  col : Nat
  deriving DecidableEq, Repr

namespace Cursor

def skip (p : Cursor) (n : Nat) : Cursor := { p with i := p.i + n, col := p.col + n }

def newline (p : Cursor) : Cursor := ⟨p.i + 1, p.line + 1, 0⟩

def position (p : Cursor) : LineCol := ⟨p.line, p.col⟩

end Cursor

def scanWhile (p : Char → Bool) : Text → Cursor → Cursor
  | [], cur => cur
  | c :: rest, cur => if p c then scanWhile p rest (cur.skip 1) else cur

-- Its condition is `i + 1 < len`
def scanBlockComment : Text → Cursor → Cursor
  | c :: d :: rest, cur =>
    if c = '*' ∧ d = '/' then cur.skip 2
    else scanBlockComment (d :: rest) (if c = '\n' then cur.newline else cur.skip 1)
  | _, cur => cur

def scanString : Text → Cursor → Cursor
  | [], cur => cur
  | c :: rest, cur =>
    if c = '"' ∨ c = '\n' then cur
    else if c = '\\' then
      match rest with
      | [] => cur.skip 1
      | _ :: rest => scanString rest (cur.skip 2)
    else scanString rest (cur.skip 1)

variable (u : Unicode)

def isNumberChar (c : Char) : Bool :=
  u.isAlphanumeric c || c = '_' || c = '\x27' || c = 'x' || c = 'z' || c = 'h' || c = 'd' || c
    = 'o' || c = 'b'

def isWordStart (c : Char) : Bool := c.isAlpha || c = '_' || c = '`' || c = '$'

def isWordPart (c : Char) : Bool := u.isAlphanumeric c || c = '_' || c = '$'

structure ScanLoop where
  cursor : Cursor
  raw : List RawToken
  deriving DecidableEq, Repr

def ScanLoop.push (st : ScanLoop) (cur : Cursor) (tokenType : Nat) : ScanLoop where
  cursor := cur
  raw := st.raw ++ [⟨st.cursor.line, st.cursor.col, cur.i - st.cursor.i, tokenType⟩]

def scanStep (content : Text) (st : ScanLoop) : List RawToken ⊕ ScanLoop :=
  let cur := st.cursor
  match content.drop cur.i with
  | [] => .inl st.raw
  | ch :: rest =>
    if ch = '\n' then
      .inr { st with cursor := cur.newline }
    else if ch = '\r' then
      .inr { st with cursor := cur.skip 1 }
    else if ch = '/' ∧ rest.head? = some '*' then
      .inr (st.push (scanBlockComment rest.tail (cur.skip 2)) 0)
    else if ch = '/' ∧ rest.head? = some '/' then
      .inr (st.push (scanWhile (· ≠ '\n') (ch :: rest) cur) 0)
    else if ch = '"' then
      let cur' := scanString rest (cur.skip 1)
      .inr (st.push (if content[cur'.i]? = some '"' then cur'.skip 1 else cur') 2)
    else if ch.isDigit then
      .inr { st with cursor := scanWhile (isNumberChar u) (ch :: rest) cur }
    else if isWordStart ch then
      let cur' := scanWhile (isWordPart u) (ch :: rest) cur
      let word := (content.drop cur.i).take (cur'.i - cur.i)
      .inr (if word ∈ keywords then st.push cur' 1 else { st with cursor := cur' })
    else
      .inr { st with cursor := cur.skip 1 }

def scanStart : ScanLoop := ⟨⟨0, 0, 0⟩, []⟩

def scan (fuel : Nat) (content : Text) : Option (List RawToken) :=
  climb (scanStep u content) fuel scanStart

/-! ## The encoding -/

structure EncodeLoop where
  result : List SemanticToken
  prevLine : Nat
  prevCol : Nat

-- Both differences are saturating
def encodeStep (st : EncodeLoop) (tok : RawToken) : EncodeLoop :=
  let (dl, ds) :=
    if tok.line = st.prevLine then (0, tok.col - st.prevCol) else (tok.line - st.prevLine, tok.col)
  ⟨st.result ++ [⟨dl, ds, tok.length, tok.tokenType, 0⟩], tok.line, tok.col⟩

def encode (raw : List RawToken) : List SemanticToken := (raw.foldl encodeStep ⟨[], 0, 0⟩).result

def tokenizeSemantic (fuel : Nat) (content : Text) : Option (List SemanticToken) :=
  (scan u fuel content).map encode

end Lsp
end HdlGraph
