import Sbmt.Lib.Phrase
/-!
# The text of a lattice, and what is read back (`gusc/lib/ast.cpp`, `gusc/gusc/lattice/grammar.hpp`)

| here | there |
| --- | --- |
| `LatticeAst`, `VertexInfo`, `Line`, `KeyValuePair` | `lattice_ast`, `vertex_info`, `lattice_line`, `key_value_pair` (`ast.hpp`) |
| `escapeC`, `printKeyValuePair`, …, `print` | `escape_c`, `operator<<` (`ast.cpp:334-352`, `:393-484`) |
| `skip` | the skipper of `getlattice` (`:535`) |
| `CEscape` | `c_escape_ch_p` |
| `cstr`, `featname`, `feat`, …, `lat` | the rules of `lattice_grammar` (`grammar.hpp:271-456`) |
| `Construct` | `lattice_ast_construct` (`ast_construct.hpp:18-75`) |

Characters stand for bytes.  The iterators on `blockstack` are the places of the lines in the tree, a `Path` each.  The
printer writes byte 7 as `\a` and byte 11 as `\v`, which the reader's escapes do not have, so exactly the
lattices with neither in a label or a value are read back (`getlattice_print`).
-/

namespace Sbmt.Gusc.LatticeText

open Sbmt.Lib.Phrase

/-! ## The tree -/

structure KeyValuePair where
  key : Text
  value : Text
deriving DecidableEq

structure VertexInfo where
  id : Nat
  label : Text
  props : List KeyValuePair
deriving DecidableEq

inductive Line where
  | edge (span : Nat × Nat) (label : Text) (props : List KeyValuePair)
  | block (props : List KeyValuePair) (lines : List Line)

structure LatticeAst where
  props : List KeyValuePair
  vertices : List VertexInfo
  lines : List Line

/-! ## Printing -/

/-- One step of the loop of `escape_c`. -/
def escapeChar (c : Char) : Text :=
  if c = '\n' then ['\\', 'n']
  else if c = '\t' then ['\\', 't']
  else if c = '\x0b' then ['\\', 'v']
  else if c = '\x08' then ['\\', 'b']
  else if c = '\r' then ['\\', 'r']
  else if c = '\x0c' then ['\\', 'f']
  else if c = '\x07' then ['\\', 'a']
  else if c = '\\' then ['\\', '\\']
  else if c = '"' then ['\\', '"']
  else [c]

def escapeC (s : Text) : Text := s.flatMap escapeChar

def quoted (s : Text) : Text := '"' :: (escapeC s ++ ['"'])

def printKeyValuePair (p : KeyValuePair) : Text := p.key ++ '=' :: quoted p.value

/-- The first, and each further one behind a blank. -/
def printProperties : List KeyValuePair → Text
  | [] => []
  | p :: ps => printKeyValuePair p ++ ps.flatMap fun q => ' ' :: printKeyValuePair q

def printVertexPair (p : Nat × Nat) : Text := '[' :: (showNat p.1 ++ ',' :: (showNat p.2 ++ [']']))

/-- `if (label().size() > 0) out << '"' << escape_c(label()) << '"' << ' '`. -/
def printLabel (label : Text) : Text := if label = [] then [] else quoted label ++ [' ']

def printVertexInfo (v : VertexInfo) : Text :=
  '[' :: (showNat v.id ++ ']' :: ' ' :: (printLabel v.label ++ printProperties v.props))

mutual

def printLine : Line → Text
  | .edge span label props => printVertexPair span ++ ' ' :: (printLabel label ++ printProperties props)
  | .block props lines =>
    "block ".toList ++ (printProperties props ++ (" \x7b ".toList ++ (printLines lines ++ "\x7d ".toList)))

/-- `for_each(li, le, out << arg1 << "; ")`. -/
def printLines : List Line → Text
  | [] => []
  | l :: lines => printLine l ++ ("; ".toList ++ printLines lines)

end

def printVertexInfos (vertices : List VertexInfo) : Text := vertices.flatMap fun v => printVertexInfo v ++ "; ".toList

def print (lat : LatticeAst) : Text :=
  "lattice ".toList ++ (printProperties lat.props ++
    (" \x7b ".toList ++ (printVertexInfos lat.vertices ++ (printLines lat.lines ++ "\x7d ".toList))))

/-! ## Skipping -/

/-- `comment_p("//")`, `comment_p("#")`: to the end of the line, or of the text. -/
def afterLine : Text → Text
  | [] => []
  | '\r' :: '\n' :: t => t
  | '\r' :: t => t
  | '\n' :: t => t
  | _ :: t => afterLine t

/-- `comment_p("/*","*/")`. -/
def afterComment : Text → Option Text
  | [] => none
  | '*' :: '/' :: t => some t
  | _ :: t => afterComment t

/-- `space_p | comment_p("//") | comment_p("/*","*/") | comment_p("#")`. -/
def skipOne : Text → Option Text
  | [] => none
  | c :: t =>
    if isSpace c then some t
    else if c = '#' then some (afterLine t)
    else if c = '/' then
      match t with
      | '/' :: t' => some (afterLine t')
      | '*' :: t' => afterComment t'
      | _ => none
    else none

def skipLoop : Nat → Text → Text
  | 0, t => t
  | n + 1, t =>
    match skipOne t with
    | some t' => skipLoop n t'
    | none => t

def skip (t : Text) : Text := skipLoop t.length t

/-! ## The grammar -/

/-- The escapes that `c_escape_ch_p` knows, the numbers apart. -/
def simpleEscape (c : Char) : Option Char :=
  if c = 'b' then some '\x08'
  else if c = 't' then some '\t'
  else if c = 'n' then some '\n'
  else if c = 'f' then some '\x0c'
  else if c = 'r' then some '\r'
  else if c = '"' then some '"'
  else if c = '\'' then some '\''
  else if c = '\\' then some '\\'
  else none

/-- A backslash and one of these may begin the number of a character. -/
def isNumeric (c : Char) : Bool := ('0' ≤ c && c ≤ '7') || c = 'x' || c = 'X'

/-- What `c_escape_ch_p` matches at the front of a text, and what it decodes that to. -/
structure CEscape where
  parse : Text → Option (Char × Text)
  parse_nil : parse [] = none
  parse_plain : ∀ (c : Char) (t : Text), c ≠ '\\' → parse (c :: t) = some (c, t)
  parse_simple : ∀ (c d : Char) (t : Text), simpleEscape c = some d → parse ('\\' :: c :: t) = some (d, t)
  parse_unknown : ∀ (c : Char) (t : Text), simpleEscape c = none → isNumeric c = false → parse ('\\' :: c :: t) = none

def digitValue (c : Char) : Nat :=
  if c.isDigit then c.toNat - 48 else if 'a' ≤ c && c ≤ 'f' then c.toNat - 87
  else if 'A' ≤ c && c ≤ 'F' then c.toNat - 55 else 16

/-- A character by its number, in at most `n` digits; a `char` holds it up to 127. -/
def numeric (base n : Nat) (t : Text) : Option (Char × Text) :=
  let ds := (t.take n).takeWhile fun c => digitValue c < base
  let v := ds.foldl (fun v c => base * v + digitValue c) 0
  if ds = [] ∨ 127 < v then none else some (Char.ofNat v, t.drop ds.length)

/-- `c_escape_ch_p`, as documented. -/
def cEscapeChP : CEscape where
  parse
    | [] => none
    | [c] => if c = '\\' then none else some (c, [])
    | c :: d :: t =>
      if c = '\\' then
        match simpleEscape d with
        | some e => some (e, t)
        | none =>
          if !isNumeric d then none else if d = 'x' || d = 'X' then numeric 16 2 t else numeric 8 3 (d :: t)
      else some (c, d :: t)
  parse_nil := rfl
  parse_plain := by
    intro c t h
    cases t <;> simp [h]
  parse_simple := by
    intro c d t h
    simp [h]
  parse_unknown := by
    intro c t h hnumeric
    simp [h, hnumeric]

variable (E : CEscape)

/-- `*(c_escape_ch_p[cstr.val += arg1])` inside `confix_p`: each round also checks that what was taken is not the
closing quote, but only after the action has run. -/
def cstrLoop : Nat → Text → Text → Text × Text
  | 0, val, t => (val, t)
  | n + 1, val, t =>
    match E.parse t with
    | none => (val, t)
    | some (c, t') => if t.head? = some '"' then (val ++ [c], t) else cstrLoop n (val ++ [c]) t'

variable (t : Text)

/-- `cstr.val` has the closing quote too, and loses it at the end. -/
def cstr : Option (Text × Text) :=
  (lit ['"'] t).bind fun t =>
    let r := cstrLoop E t.length [] t
    (lit ['"'] r.2).map fun t' => (r.1.dropLast, t')

def isFeatChar (c : Char) : Bool := c.isAlphanum || c = '-' || c = '_'

def featname : Text → Option (Text × Text)
  | [] => none
  | c :: t => if c.isAlpha then some (c :: t.takeWhile isFeatChar, t.dropWhile isFeatChar) else none

def feat : Option (KeyValuePair × Text) :=
  (featname (skip t)).bind fun r => (lit ['='] r.2).bind fun t => (cstr E t).map fun v => (⟨r.1, v.1⟩, v.2)

def featsLoop : Nat → Text → List KeyValuePair × Text
  | 0, t => ([], t)
  | n + 1, t =>
    match feat E t with
    | some (f, t') =>
      let r := featsLoop n t'
      (f :: r.1, r.2)
    | none => ([], t)

def feats : List KeyValuePair × Text := featsLoop E t.length t

/-- `!(ufeat[lbl = arg1])`. -/
def optUfeat : Text × Text :=
  match cstr E (skip t) with
  | some r => r
  | none => ([], t)

/-- A character of the phrase level. -/
def chP (c : Char) (t : Text) : Option Text := lit [c] (skip t)

def uintP : Option (Nat × Text) := readBelow (2 ^ 32) (skip t)

def vtxid : Option (Nat × Text) :=
  (chP '[' t).bind fun t => (uintP t).bind fun r => (chP ']' r.2).map fun t => (r.1, t)

def vtxidPair : Option ((Nat × Nat) × Text) :=
  (chP '[' t).bind fun t => (uintP t).bind fun r => (chP ',' r.2).bind fun t => (uintP t).bind fun r' =>
    (chP ']' r'.2).map fun t => ((r.1, r'.1), t)

/-! ## The actions -/

abbrev Path := List Nat

/-- The lines of the block at a place. -/
def linesAt : Path → List Line → List Line
  | [], lines => lines
  | i :: path, lines =>
    match lines[i]? with
    | some (.block _ inner) => linesAt path inner
    | _ => []

/-- `insert_edge` and `insert_block` of the block at a place: the line comes last. -/
def insertAt : Path → Line → List Line → List Line
  | [], l, lines => lines ++ [l]
  | i :: path, l, lines =>
    lines.modify i fun b =>
      match b with
      | .block props inner => .block props (insertAt path l inner)
      | .edge span label props => .edge span label props

structure Construct where
  blockstack : List Path
  ast : LatticeAst

def Construct.empty : Construct := ⟨[], ⟨[], [], []⟩⟩

namespace Construct

variable (c : Construct)

/-- The block that is being filled, the lattice itself if there is none. -/
def top : Path := c.blockstack.headD []

def insertLine (l : Line) : Construct :=
  { c with ast := { c.ast with lines := insertAt c.top l c.ast.lines } }

def newEdge (span : Nat × Nat) (lbl : Text) (props : List KeyValuePair) : Construct :=
  c.insertLine (.edge span lbl props)

def newVertex (id : Nat) (lbl : Text) (props : List KeyValuePair) : Construct :=
  { c with ast := { c.ast with vertices := c.ast.vertices ++ [⟨id, lbl, props⟩] } }

def beginBlock (props : List KeyValuePair) : Construct :=
  { c.insertLine (.block props []) with
    blockstack := (c.top ++ [(linesAt c.top c.ast.lines).length]) :: c.blockstack }

def endBlock : Construct := { c with blockstack := c.blockstack.tail }

def properties (props : List KeyValuePair) : Construct :=
  { c with ast := { c.ast with props := c.ast.props ++ props } }

end Construct

/-! ## The lines -/

def vtx : Rule Construct := fun c t =>
  match vtxid t with
  | none => (c, none)
  | some (v, t) =>
    let lbl := optUfeat E t
    let fs := feats E lbl.2
    (c.newVertex v lbl.1 fs.1, some fs.2)

def edge : Rule Construct := fun c t =>
  match vtxidPair t with
  | none => (c, none)
  | some (p, t) =>
    let lbl := optUfeat E t
    let fs := feats E lbl.2
    (c.newEdge p lbl.1 fs.1, some fs.2)

/-- `p >> ';' >> flush_multi_pass_p`. -/
def stmt (p : Rule Construct) : Rule Construct := andThen p (recognize (chP ';'))

/-- The head of a lattice or block, `word feats '{'`, with its action. -/
def opening (word : Text) (act : Construct → List KeyValuePair → Construct) : Rule Construct := fun c t =>
  match lit word (skip t) with
  | none => (c, none)
  | some t =>
    match chP '{' (feats E t).2 with
    | none => (c, none)
    | some t' => (act c (feats E t).1, some t')

/-- `+(p >> ';' >> flush_multi_pass_p) >> '}'`. -/
def body (p : Rule Construct) : Rule Construct := andThen (plus (stmt p)) (recognize (chP '}'))

/-- Blocks nest less deep than the text is long. -/
def block : Nat → Rule Construct
  | 0 => fun c _ => (c, none)
  | n + 1 =>
    andThen (andThen (opening E "block".toList Construct.beginBlock) (body (orElse (edge E) (block n))))
      fun c t => (c.endBlock, some t)

def edgeBlock (n : Nat) : Rule Construct := orElse (edge E) (block E n)

def vtxEdgeBlock (n : Nat) : Rule Construct := orElse (vtx E) (edgeBlock E n)

def lat (n : Nat) : Rule Construct :=
  andThen (opening E "lattice".toList Construct.properties) (body (vtxEdgeBlock E n))

/-- `none`: the lattice is not assigned, and `failbit` is set, or going back behind a flushed buffer throws.  The
checks for a text with nothing to read come first in the source; the grammar does not match such a text either. -/
def getlattice : Option LatticeAst :=
  match lat E t.length Construct.empty t with
  | (c, some _) => some c.ast
  | (_, none) => none

end Sbmt.Gusc.LatticeText
