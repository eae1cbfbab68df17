import Sbmt.Grammar.Dictionary

/-!
# grammar_in_mem: subgrammars that are pushed and popped

| here | there |
| --- | --- |
| `GrammarInMem` | the members of `grammar_in_mem` (`grammar/grammar_in_memory.hpp:702-724`) |
| `readItem` | `detail::syntax_rule_action` and `detail::binary_rule_action` (`src/grammar_in_memory.cpp:507-656`) |
| `byroot` … `rescore` | `detail::virtual_rules` (`:138-270`) |
| `recomputeHeuristics`, `notHidden` | `:1082-1099`, `:695-698` |
| `load`, `push`, `pop` | `:890-974` |

A rule is known by its place in the order in which the subgrammars' rules are
run through, so `heuristic` gives `rule_info::heuristic` by place. The features
of a rule go by their names, which `feature_dict` numbers. A `brf_reader` is the
list of the tokens it asks the dictionary for and of the rules it hands over.
Scores are any linear order with `as_zero` at the bottom; the floating point
functions `geom` and `tag_prior` (with `weight_tag_prior`) are parameters.
-/

namespace Sbmt.Grammar

/-- The topology of an `indexed_binary_rule`. -/
structure BinaryRule where
  lhs : Token
  rhs0 : Token
  rhs1 : Option Token
deriving DecidableEq, Repr

def BinaryRule.rhs (r : BinaryRule) : List Token := r.rhs0 :: r.rhs1.toList

inductive RuleTypeCode where
  | binary
  | unary
  | toplevelUnary
  | toplevelBinary
deriving DecidableEq, Repr

/-- `rule_key2` -/
structure RuleKey2 where
  tok1 : Token
  tok2 : Option Token
  typeCode : RuleTypeCode
deriving DecidableEq, Repr

/-- `binary_key` of two tokens -/
def binaryKey (tok1 : Token) (tok2 : Option Token) : RuleKey2 := ⟨tok1, tok2, .binary⟩

/-- `rule_info_double_key_extractor` -/
def BinaryRule.doubleKey (r : BinaryRule) : RuleKey2 where
  tok1 := r.rhs0
  tok2 := r.rhs1
  typeCode :=
    match r.lhs, r.rhs1 with
    | .top, none => .toplevelUnary
    | .top, some _ => .toplevelBinary
    | _, none => .unary
    | _, some _ => .binary

/-- What rescoring reads of a `rule_info`. -/
structure ScoredRule (S : Type) where
  rule : BinaryRule
  /-- `none` is `NULL_SYNTAX_ID` -/
  syntaxId : Option Int
  scores : List (String × S)

structure RuleInfo (S V : Type) extends ScoredRule S where
  texts : List (String × String)
  score : S
  properties : List (Option V)
  hidden : Bool

structure ScoredSyntax (X : Type) where
  id : Int
  rule : X

/-- A constructor of rule properties: what it makes of a text, and the tokens it asks for on the way. -/
structure PropertyConstructor (V : Type) where
  name : String
  tokens : String → List FatToken
  construct : Dictionary → String → V

/-- `prior_string` with `prior_floor`, `prior_smooth`, `prior_pow` and `weight_tag_prior`: the tags it names, and the
weighted prior of a tag when these have become the given tokens. -/
structure TagPrior (S : Type) where
  names : List String
  weigh : List Token → Token → S

structure GrammarInMem (S W V X : Type) where
  weights : String → W
  propConstructors : List (PropertyConstructor V)
  tagPrior : TagPrior S
  prior : Token → S
  rules : List (List (RuleInfo S V))
  heuristic : Nat → S
  tokens : Dictionary
  syntaxRules : List (List (ScoredSyntax X))
  minSyntaxId : Int
  subgrammarDictMax : List Markers

/-- A call that does not return as it should. -/
inductive Fault where
  | threw (what : String)
  /-- a recursion without end -/
  | loops
  /-- `back()` of an empty container -/
  | undefined
deriving DecidableEq, Repr

variable {S W V X : Type}

/-! ## Heuristics -/

/-- The rule `byroot` has for a virtual tag, and its place: the first one, since `insert` keeps what is there. -/
def byroot (rs : List (ScoredRule S)) (root : Token) : Option (ScoredRule S × Nat) :=
  rs.zipIdx.find? fun p => p.1.rule.lhs = root

section
variable [LinearOrder S]

/-- `maybe_increase_max` of one rule's heuristic -/
def maybeIncreaseMax (heuristic : Nat → S) (k : Nat) (h : S) : Nat → S :=
  if heuristic k < h then Function.update heuristic k h else heuristic

/-- `improve_heuristic_recurse`, to a depth of `fuel` rules. -/
def improveHeuristicRecurse (rs : List (ScoredRule S)) (h : S) : Nat → ScoredRule S → (Nat → S) → Option (Nat → S)
  | 0, _, _ => none
  | fuel + 1, r, heuristic =>
    r.rule.rhs.foldlM (fun heuristic c =>
      if c.isVirtual then
        match byroot rs c with
        | none => some heuristic
        | some (vt, k) => improveHeuristicRecurse rs h fuel vt (maybeIncreaseMax heuristic k h)
      else some heuristic) heuristic

/-- `heuristic_weights`: "brf-level features will not be a part of heuristics". -/
def heuristicWeights [Zero W] (rs : List (ScoredRule S)) (weights : String → W) : String → W :=
  rs.foldl (fun w r =>
    if r.rule.lhs.isVirtual then r.scores.foldl (fun w sp => Function.update w sp.1 0) w else w) weights

variable (geom : List (String × S) → (String → W) → S)

/-- `weighted_prior` -/
def weightedPrior [OrderBot S] [One S] (prior : Token → S) : Token → S
  | .indexed .virtualTag _ => ⊥
  | .indexed .tag i => prior (.indexed .tag i)
  | _ => 1

/-- The second loop of `rescore`, for one rule: a recursion deeper than there are rules comes back to a rule it is
in, and has no end. -/
def rescoreRule [OrderBot S] [One S] [Mul S] [Zero W] (rs : List (ScoredRule S)) (syntaxIds : List Int)
    (weights : String → W) (prior : Token → S) (heuristic : Nat → S) (p : ScoredRule S × Nat) : Except Fault (Nat → S) :=
  if p.1.rule.lhs.isVirtual then .ok heuristic
  else if p.1.syntaxId.any (syntaxIds.contains ·) then
    let h := weightedPrior prior p.1.rule.lhs
    match improveHeuristicRecurse rs (geom p.1.scores (heuristicWeights rs weights) * h) (rs.length + 1) p.1
        (Function.update heuristic p.2 h) with
    | some heuristic => .ok heuristic
    | none => .error .loops
  else .error (.threw "syntax rule not found")

def rescore [OrderBot S] [One S] [Mul S] [Zero W] (rs : List (ScoredRule S)) (syntaxIds : List Int)
    (weights : String → W) (prior : Token → S) : Except Fault (Nat → S) :=
  rs.zipIdx.foldlM (rescoreRule geom rs syntaxIds weights prior) fun _ => ⊥

/-- The tags that `prior_string` names, asked for in their order. -/
def readPrior (d : Dictionary) : List String → List Token × Dictionary
  | [] => ([], d)
  | name :: names =>
    ((d.createToken (.word .tag name)).1 :: (readPrior (d.createToken (.word .tag name)).2 names).1,
      (readPrior (d.createToken (.word .tag name)).2 names).2)

namespace GrammarInMem

variable (g : GrammarInMem S W V X)

/-- All rules, in the order the subgrammars and their rules are run through. -/
def scoredRules : List (ScoredRule S) := g.rules.flatten.map RuleInfo.toScoredRule

def syntaxIds : List Int := g.syntaxRules.flatten.map ScoredSyntax.id

def recomputeHeuristics [OrderBot S] [One S] [Mul S] [Zero W] : Except Fault (GrammarInMem S W V X) :=
  let tags := readPrior g.tokens g.tagPrior.names
  let prior := g.tagPrior.weigh tags.1
  match rescore geom g.scoredRules g.syntaxIds g.weights prior with
  | .ok heuristic => .ok { g with tokens := tags.2, prior := prior, heuristic := heuristic }
  | .error e => .error e

/-- `not_hidden`, of the rule at a place -/
def notHidden [OrderBot S] (p : RuleInfo S V × Nat) : Bool := !p.1.hidden && ⊥ < g.heuristic p.2

/-- `all_rules` -/
def allRules [OrderBot S] : List (RuleInfo S V × Nat) := g.rules.flatten.zipIdx.filter g.notHidden

end GrammarInMem

/-! ## Reading a subgrammar -/

/-- A binarized rule as a reader finds it. -/
structure FatRule (S : Type) where
  lhs : FatToken
  rhs0 : FatToken
  rhs1 : Option FatToken
  scores : List (String × S)
  texts : List (String × String)
  syntaxId : List Int

/-- What a reader does: ask the dictionary for a token, or hand over a rule. -/
inductive Item (S X : Type) where
  | token (tok : FatToken)
  | syntax_ (id : Int) (rule : X)
  | binary (b : FatRule S)

/-- The tokens a rule is made of, in the order they are asked for. -/
def FatRule.tokens (b : FatRule S) : List FatToken := b.lhs :: b.rhs0 :: b.rhs1.toList

def Item.tokens : Item S X → List FatToken
  | token tok => [tok]
  | syntax_ _ _ => []
  | binary b => b.tokens

/-- `rule_topology` of a labelled rule, and the dictionary after it. -/
def FatRule.index (b : FatRule S) (d : Dictionary) : BinaryRule × Dictionary :=
  let l := d.createToken b.lhs
  let r₀ := l.2.createToken b.rhs0
  match b.rhs1 with
  | none => (⟨l.1, r₀.1, none⟩, r₀.2)
  | some tok => (⟨l.1, r₀.1, some (r₀.2.createToken tok).1⟩, (r₀.2.createToken tok).2)

/-- What a push has read so far. -/
structure Reading (S V X : Type) where
  tokens : Dictionary
  back : List (RuleInfo S V)
  backSyntax : List (ScoredSyntax X)
  minSyntaxId : Int

namespace GrammarInMem

variable (g : GrammarInMem S W V X)

/-- A virtual rule that a subgrammar below has. -/
def found (r : BinaryRule) : Bool :=
  g.rules.flatten.any fun pr => pr.rule.doubleKey = binaryKey r.rhs0 r.rhs1 && pr.rule.lhs = r.lhs

variable (keepTexts keepHeadmarker : Bool)

/-- The texts a rule keeps until its properties are made. -/
def keptTexts (texts : List (String × String)) :
    List (String × String) :=
  texts.filter fun t => (g.propConstructors.any fun c => c.name = t.1) || keepTexts ||
    (keepHeadmarker && t.1 = "headmarker")

/-- `syntax_rule_action` and `binary_rule_action`; the syntax rules of one subgrammar go by their ids. -/
def readItem (st : Reading S V X) : Item S X → Reading S V X
  | .token tok => { st with tokens := (st.tokens.createToken tok).2 }
  | .syntax_ id rule =>
    { st with
      backSyntax := if st.backSyntax.any (·.id = id) then st.backSyntax else st.backSyntax ++ [⟨id, rule⟩]
      minSyntaxId := min st.minSyntaxId id }
  | .binary b =>
    let r := b.index st.tokens
    let texts := g.keptTexts keepTexts keepHeadmarker b.texts
    if r.1.lhs.isVirtual then
      if g.found r.1 then { st with tokens := r.2 }
      else { st with
        tokens := r.2
        back := st.back ++ [⟨⟨r.1, none, b.scores⟩, texts, geom b.scores g.weights, [], false⟩] }
    else
      { st with
        tokens := r.2
        back := st.back ++ [⟨⟨r.1, b.syntaxId.head?, b.scores⟩, texts, geom b.scores g.weights, [], false⟩] }

/-- `reader.read()` with the handlers of `push` -/
def read (reader : List (Item S X)) : Reading S V X :=
  reader.foldl (g.readItem geom keepTexts keepHeadmarker) ⟨g.tokens, [], [], g.minSyntaxId⟩

end GrammarInMem

/-! ## Properties -/

variable (pcs : List (PropertyConstructor V))

/-- The constructors called for the texts of one rule, with their places and texts, in their order. -/
def constructorCalls (texts : List (String × String)) :
    List ((PropertyConstructor V × Nat) × String) :=
  texts.flatMap fun t => (pcs.zipIdx.filter fun c => c.1.name = t.1).map fun c => (c, t.2)

/-- `construct_properties` of the constructors (`grammar/property_construct.hpp:178-200`) -/
def constructProperties (texts : List (String × String)) (d : Dictionary) :
    List (Option V) × Dictionary :=
  (constructorCalls pcs texts).foldl
    (fun st c => (st.1.set c.1.2 (some (c.1.1.construct st.2 c.2)), st.2.createTokens (c.1.1.tokens c.2)))
    (pcs.map fun _ => none, d)

/-- A new rule gets its properties and loses the texts that are not to be kept. -/
def finishRule (keepTexts keepHeadmarker : Bool) (d : Dictionary)
    (r : RuleInfo S V) : RuleInfo S V × Dictionary :=
  let made := constructProperties pcs r.texts d
  let texts :=
    if keepTexts then r.texts
    else if keepHeadmarker then (r.texts.find? fun t => t.1 = "headmarker").toList
    else []
  ({ r with properties := made.1, texts := texts }, made.2)

/-- The loop over `rules.back()`. -/
def finishRules (pcs : List (PropertyConstructor V)) (keepTexts keepHeadmarker : Bool) :
    List (RuleInfo S V) → Dictionary → List (RuleInfo S V) × Dictionary
  | [], d => ([], d)
  | r :: rs, d =>
    let first := finishRule pcs keepTexts keepHeadmarker d r
    let rest := finishRules pcs keepTexts keepHeadmarker rs first.2
    (first.1 :: rest.1, rest.2)

/-! ## Pushing and popping -/

namespace GrammarInMem

variable [OrderBot S] [One S] [Mul S] [Zero W] (g : GrammarInMem S W V X)

def push (reader : List (Item S X)) (keepTexts keepHeadmarker : Bool) :
    Except Fault (GrammarInMem S W V X) :=
  let st := g.read geom keepTexts keepHeadmarker reader
  let g₁ := { g with
    rules := g.rules ++ [st.back]
    syntaxRules := g.syntaxRules ++ [st.backSyntax]
    tokens := st.tokens
    minSyntaxId := st.minSyntaxId }
  match g₁.recomputeHeuristics geom with
  | .error e => .error e
  | .ok g₂ =>
    let finished := finishRules g.propConstructors keepTexts keepHeadmarker st.back g₂.tokens
    .ok { g₂ with
      rules := g.rules ++ [finished.1]
      tokens := finished.2
      subgrammarDictMax := g.subgrammarDictMax ++ [finished.2.dictionaryBoundary] }

def pop : Except Fault (GrammarInMem S W V X) :=
  match g.subgrammarDictMax.getLast? with
  | none => .error .undefined
  | some m =>
    ({ g with
      rules := g.rules.dropLast
      syntaxRules := g.syntaxRules.dropLast
      tokens := g.tokens.shrink m
      subgrammarDictMax := g.subgrammarDictMax.dropLast } : GrammarInMem S W V X).recomputeHeuristics geom

/-- `update_weights`: every rule's score anew, then the heuristics. -/
def updateWeights (combine : String → W) (pc : List (PropertyConstructor V)) :
    Except Fault (GrammarInMem S W V X) :=
  ({ g with
    weights := combine
    propConstructors := pc
    rules := g.rules.map fun rs => rs.map fun r => { r with score := geom r.scores combine } }
      : GrammarInMem S W V X).recomputeHeuristics geom

def load (reader : List (Item S X)) (combine : String → W) (pc : List (PropertyConstructor V))
    (keepTexts keepHeadmarker : Bool) : Except Fault (GrammarInMem S W V X) :=
  let g₀ := { g with
    minSyntaxId := 0, subgrammarDictMax := [], rules := [], syntaxRules := [], tokens := Dictionary.reset }
  match g₀.updateWeights geom combine pc with
  | .error e => .error e
  | .ok g₁ => g₁.push geom reader keepTexts keepHeadmarker

end GrammarInMem

end

/-- `geom` over the natural numbers. -/
def natGeom (scores : List (String × Nat)) (weights : String → Nat) : Nat := (scores.map fun p => p.2 ^ weights p.1).prod

end Sbmt.Grammar
