import Sbmt.Lib.Phrase
/-!
# The text of an xrs rule (`xrsparse/src/xrs.cpp`, `xrsparse/xrsparse/xrs_grammar_.hpp`)

| here | there |
| --- | --- |
| `printPos`, `printRhs`, `printFeature`, `print` | `operator<<` (`xrs.cpp:30-115`) |
| `nt`, `word`, `indexedNt`, `lhsSeqItem`, `lhsSeq`, `lhsRoot` | the rules of `lhs` (`xrs_grammar_.hpp:484-521`) |
| `rhsItem`, `rhsItems` | the rules of `rhs` (`:465-482`) |
| `fname`, `fvalue`, `feat`, `feats` | the rules of `features` (`:436-463`) |

`lhs_node_`, `nt_`, `lhs_word_`, `indexed_nt_`, `rhs_item_` and `feat_` are set by one token and used by its next action, so
here they are the value of the token; the two stacks, `lhs_seq_item_`, `lhs_root_` and what was pushed onto
`lhs` live on, also where the rule that set them does not match in the end.  `rule_data::id` is not
initialized, so the reader is given what is in that memory.
-/

namespace Sbmt.Xrs

open Sbmt.Lib.Phrase

/-! ## Rules -/

structure LhsNode where
  indexed : Bool
  children : Bool
  label : Text
  index : Nat
  /-- The next child, 0 for the last. -/
  next : Nat
deriving DecidableEq

inductive RhsNode where
  | index (i : Nat)
  | word (label : Text)
deriving DecidableEq

/-- `number`, or `str_value` with `compound`. -/
inductive FeatureValue (D : Type) where
  | number (v : D)
  | str (compound : Bool) (s : Text)
deriving DecidableEq

structure Feature (D : Type) where
  key : Text
  value : FeatureValue D
deriving DecidableEq

structure RuleData (D : Type) where
  lhs : List LhsNode
  rhs : List RhsNode
  features : List (Feature D)
  id : Int64
deriving DecidableEq

/-- Floating point numbers: what `real_p` reads, which never looks behind a blank, and what is done with it. -/
structure Reals (D : Type) where
  realP : Text → Option (D × Text)
  divNeglog10 : D → D
  neg : D → D
  shown : D → Text
  realP_local : ∀ w t : Text, (∀ c ∈ w, isSpace c = false) → (∀ c ∈ t.head?, isSpace c = true) →
    (realP (w ++ t)).isSome = (realP w).isSome

variable {D : Type} (R : Reals D)

/-! ## Printing -/

def quoted (s : Text) : Text := '"' :: (s ++ ['"'])

mutual

/-- `operator<<(ostream&, lhs_pos)`; each call and each round of its loop is further to the right. -/
def printPos (vec : List LhsNode) : Nat → Nat → Text
  | 0, _ => []
  | n + 1, pos =>
    match vec[pos]? with
    | none => []
    | some r =>
      if r.indexed then 'x' :: (showNat r.index ++ ':' :: r.label)
      else if !r.children then quoted r.label
      else r.label ++ '(' :: (printPos vec n (pos + 1) ++ (printNext vec n (pos + 1) ++ [')']))

/-- `while (rr.pos->next != 0)`. -/
def printNext (vec : List LhsNode) : Nat → Nat → Text
  | 0, _ => []
  | n + 1, pos =>
    match vec[pos]? with
    | none => []
    | some r => if r.next = 0 then [] else ' ' :: (printPos vec n r.next ++ printNext vec n r.next)

end

def printRhsNode : RhsNode → Text
  | .index i => 'x' :: showNat i
  | .word w => quoted w

def opens : Text := ['{', '{', '{']

def closes : Text := ['}', '}', '}']

def printFeature (f : Feature D) : Text :=
  if f.key = [] then []
  else
    f.key ++ '=' ::
      match f.value with
      | .number v => ['1', '0', '^'] ++ R.shown (R.neg v)
      | .str true s => opens ++ (s ++ closes)
      | .str false s => s

/-- `copy(…, gusc::ostream_iterator(os," "))`. -/
def joined : List Text → Text
  | [] => []
  | w :: ws => w ++ ws.flatMap (' ' :: ·)

def showInt (v : Int) : Text := if v < 0 then '-' :: showNat v.natAbs else showNat v.natAbs

def printId (id : Int64) : Text := if id = 0 then [] else [' ', 'i', 'd', '='] ++ showInt id.toInt

def print (rd : RuleData D) : Text :=
  printPos rd.lhs rd.lhs.length 0 ++ ([' ', '-', '>', ' '] ++ (joined (rd.rhs.map printRhsNode) ++
    ([' ', '#', '#', '#'] ++ (printId rd.id ++
      if rd.features = [] then [] else ' ' :: joined (rd.features.map (printFeature R))))))

/-! ## Tokens -/

variable (t : Text)

def skip : Text := t.dropWhile isSpace

/-- `graph_p`. -/
def isGraph (c : Char) : Bool := 33 ≤ c.toNat && c.toNat ≤ 126

def isNt (c : Char) : Bool := isGraph c && c ≠ '(' && c ≠ ')'

def nt : Option (Text × Text) := run isNt (skip t)

/-- A character of the phrase level. -/
def chP (c : Char) (t : Text) : Option (Unit × Text) := (lit [c] (skip t)).map fun t => ((), t)

/-- `lexeme_d['x' >> uint_p]`, within a token. -/
def xIndex : Option (Nat × Text) := (lit ['x'] t).bind (readBelow (2 ^ 32))

def indexedNt : Option ((Nat × Text) × Text) :=
  (xIndex (skip t)).bind fun i => (lit [':'] i.2).bind fun t => (run isNt t).map fun l => ((i.1, l.1), l.2)

/-- `confix_p('"', *(~ch_p('"')), '"')`. -/
def plainWord : Option (Text × Text) :=
  (lit ['"'] t).bind fun t =>
    (lit ['"'] (t.dropWhile (· ≠ '"'))).map fun t' => (t.takeWhile (· ≠ '"'), t')

/-- A quote mark, with or without `@` on either side, or any string without quote marks. -/
def quotedWord : Option (Text × Text) :=
  match lit ['"', '"', '"'] t with
  | some t' => some (['"'], t')
  | none =>
    match lit ['"', '"', '@', '"'] t with
    | some t' => some (['"', '@'], t')
    | none =>
      match lit ['"', '@', '"', '"'] t with
      | some t' => some (['@', '"'], t')
      | none =>
        match lit ['"', '@', '"', '@', '"'] t with
        | some t' => some (['@', '"', '@'], t')
        | none => plainWord t

/-- `lhs_word` and `rhs_word`. -/
def word : Option (Text × Text) := quotedWord (skip t)

/-! ## The left-hand side -/

structure LhsState where
  lhs : List LhsNode
  /-- `lhs_root_stack_`, the top first. -/
  rootStack : List Nat
  /-- `lhs_seq_`, the top first. -/
  seqStack : List Nat
  seqItem : Nat
  root : Nat

namespace LhsState

def empty : LhsState := ⟨[], [], [], 0, 0⟩

variable (s : LhsState)

def push (nd : LhsNode) : LhsState := { s with lhs := s.lhs ++ [nd] }

/-- The actions of `nt` in `lhs_root`. -/
def openRoot (l : Text) (s : LhsState) : LhsState :=
  let s := s.push ⟨false, true, l, 0, 0⟩
  { s with rootStack := (s.lhs.length - 1) :: s.rootStack }

def openSeq : LhsState := { s with seqStack := 0 :: s.seqStack }

def pushWord (w : Text) (s : LhsState) : LhsState := s.push ⟨false, false, w, 0, 0⟩

/-- The actions of `ch_p(')')`. -/
def closeRoot : LhsState :=
  { s with seqStack := s.seqStack.tail, root := s.rootStack.headD 0, rootStack := s.rootStack.tail }

/-- The actions of `indexed_nt`, in itself and in `lhs_seq_item`. -/
def pushVar (v : Nat × Text) (s : LhsState) : LhsState :=
  let s := s.push ⟨true, false, v.2, v.1, 0⟩
  { s with seqItem := s.lhs.length - 1 }

def takeRoot : LhsState := { s with seqItem := s.root }

/-- `assign_at_back_(lhs_seq_, lhs_seq_item_)`. -/
def setBack : LhsState := { s with seqStack := s.seqItem :: s.seqStack.tail }

/-- `assign_next_at_(lhs, lhs_seq_, lhs_seq_item_)`, then `assign_at_back_`. -/
def link : LhsState :=
  { s with lhs := s.lhs.modify (s.seqStack.headD 0) fun nd => { nd with next := s.seqItem } }.setBack

end LhsState

def lhsSeqItem (root : Rule LhsState) : Rule LhsState :=
  orElse (token indexedNt LhsState.pushVar) (andThen root (perform LhsState.takeRoot))

def lhsSeq (item : Rule LhsState) : Rule LhsState :=
  orElse (token word LhsState.pushWord)
    (andThen (andThen item (perform LhsState.setBack)) (many (andThen item (perform LhsState.link))))

/-- Roots nest less deep than the text is long. -/
def lhsRoot : Nat → Rule LhsState
  | 0 => fun s _ => (s, none)
  | n + 1 =>
    andThen (token nt LhsState.openRoot)
      (andThen (token (chP '(') fun _ => LhsState.openSeq)
        (andThen (lhsSeq (lhsSeqItem (lhsRoot n))) (token (chP ')') fun _ => LhsState.closeRoot)))

/-! ## The right-hand side -/

def rhsItem : Option (RhsNode × Text) :=
  match word t with
  | some (w, t') => some (.word w, t')
  | none => (xIndex (skip t)).map fun i => (.index i.1, i.2)

def rhsItems : Rule (List RhsNode) := many (token rhsItem fun nd rhs => rhs ++ [nd])

/-! ## The features -/

structure FeatState (D : Type) where
  id : Int64
  features : List (Feature D)

/-- `int_parser<int64_t, 10, 1, -1>`. -/
def readInt : Text → Option (Int64 × Text)
  | [] => none
  | c :: t =>
    if c = '-' then (readBelow (2 ^ 63 + 1) t).map fun r => (Int64.ofInt (-r.1), r.2)
    else (readBelow (2 ^ 63) (if c = '+' then t else c :: t)).map fun r => (Int64.ofInt r.1, r.2)

/-- `lexeme_d["id=" >> id_p]`. -/
def idField : Option (Int64 × Text) := (lit ['i', 'd', '='] (skip t)).bind readInt

def isKey (c : Char) : Bool := isGraph c && c ≠ ':' && c ≠ ',' && c ≠ '='

/-- `*(anychar_p - "}}}") >> "}}}"`. -/
def untilClose : Text → Option (Text × Text)
  | [] => none
  | c :: t =>
    match lit closes (c :: t) with
    | some r => some ([], r)
    | none => (untilClose t).map fun r => (c :: r.1, r.2)

def compoundStr : Option (Text × Text) := (lit opens t).bind untilClose

def score : Option (D × Text) :=
  match (lit ['e', '^'] t).bind R.realP with
  | some r => some (R.divNeglog10 r.1, r.2)
  | none =>
    match (lit ['1', '0', '^'] t).bind R.realP with
    | some r => some (R.neg r.1, r.2)
    | none => R.realP t

def simpleStr : Option (Text × Text) := run (fun c => !isSpace c) t

def fvalue : Option (FeatureValue D × Text) :=
  match compoundStr t with
  | some r => some (.str true r.1, r.2)
  | none =>
    match score R t with
    | some r => some (.number r.1, r.2)
    | none => (simpleStr t).map fun r => (.str false r.1, r.2)

def feat : Option (Feature D × Text) :=
  (run isKey (skip t)).bind fun k => (lit ['='] k.2).bind fun t => (fvalue R t).map fun v => (⟨k.1, v.1⟩, v.2)

def field : Rule (FeatState D) :=
  orElse (token idField fun id s => { s with id := id })
    (token (feat R) fun f s => { s with features := s.features ++ [f] })

/-! ## The rule -/

/-- How many variables there are on the two sides. -/
def sameVars (lhs : List LhsNode) (rhs : List RhsNode) : Bool :=
  lhs.countP (fun nd => nd.indexed) = rhs.countP fun nd => match nd with
    | .index _ => true
    | .word _ => false

/-- `none`: it throws.  `memory` is what is in `retval.id` at first. -/
def parseXrs (memory : Int64) (line : Text) : Option (RuleData D) :=
  match lhsRoot line.length LhsState.empty line with
  | (_, none) => none
  | (s, some t) =>
    (lit ['-', '>'] (skip t)).bind fun t =>
      let rhs := rhsItems [] t
      (rhs.2.bind fun t => lit ['#', '#', '#'] (skip t)).bind fun t =>
        let fs := many (field R) ⟨memory, []⟩ t
        fs.2.bind fun t =>
          if skip t = [] ∧ sameVars s.lhs rhs.1 = true then some ⟨s.lhs, rhs.1, fs.1.features, fs.1.id⟩ else none

end Sbmt.Xrs
