import Sbmt.Grammar.InMemory

/-!
# What a pop takes back

`push` puts the boundary of the dictionary on the stack when it is done, and
`pop` shrinks the dictionary to that boundary: it cuts nothing off. Rules,
syntax rules and heuristics are restored; a token that the pushed source has
made stays.
-/

namespace Sbmt.Grammar

open List

variable {S W V X : Type}

/-! ## The tokens that are asked for -/

theorem readPrior_snd (d : Dictionary) (names : List String) :
    (readPrior d names).2 = d.createTokens (names.map (.word .tag)) := by
  induction names generalizing d with
  | nil => rfl
  | cons name names ih => exact ih _

theorem readPrior_names (d : Dictionary) (names : List String) :
    Forall₂ (fun name => (readPrior d names).2.Names (.word .tag name)) names (readPrior d names).1 := by
  induction names generalizing d with
  | nil => exact .nil
  | cons name names ih =>
    refine .cons ?_ (ih _)
    refine (Dictionary.names_createToken d (.word .tag name)).mono ?_
    rw [readPrior_snd]
    exact Dictionary.older_createTokens _ _

/-- Once the tags of the prior are there, they are read as the same tokens ever after. -/
theorem readPrior_fst {d d' : Dictionary} {names : List String} (h : (readPrior d names).2.Older d') :
    (readPrior d' names).1 = (readPrior d names).1 := by
  have hnew : Forall₂ (fun name => (readPrior d' names).2.Names (.word .tag name)) names (readPrior d' names).1 :=
    readPrior_names d' names
  have hold := readPrior_names d names
  have holder : (readPrior d names).2.Older (readPrior d' names).2 := by
    refine h.trans ?_
    rw [readPrior_snd]
    exact Dictionary.older_createTokens _ _
  clear h
  generalize (readPrior d' names).2 = u at hnew holder
  generalize (readPrior d' names).1 = ts' at hnew
  generalize (readPrior d names).2 = u0 at hold holder
  generalize (readPrior d names).1 = ts at hold
  induction hnew generalizing ts with
  | nil =>
    cases hold
    rfl
  | cons hname _ ih =>
    cases hold with
    | cons hname0 hrest =>
      rw [hname.unique (hname0.mono holder), ih _ hrest]

theorem FatRule.index_snd (b : FatRule S) (d : Dictionary) : (b.index d).2 = d.createTokens b.tokens := by
  unfold FatRule.index FatRule.tokens
  cases b.rhs1 <;> rfl

theorem FatRule.index_isVirtual (b : FatRule S) (d : Dictionary) : (b.index d).1.lhs.isVirtual = b.lhs.isVirtual := by
  have h := (Dictionary.names_createToken d b.lhs).isVirtual
  unfold FatRule.index
  cases b.rhs1 <;> exact h

/-- The tokens that the constructors ask for on the texts of one rule. -/
def propertyTokens (pcs : List (PropertyConstructor V)) (texts : List (String × String)) : List FatToken :=
  (constructorCalls pcs texts).flatMap fun c => c.1.1.tokens c.2

section

variable (pcs : List (PropertyConstructor V))

theorem constructProperties_snd (texts : List (String × String)) (d : Dictionary) :
    (constructProperties pcs texts d).2 = d.createTokens (propertyTokens pcs texts) := by
  unfold constructProperties propertyTokens
  generalize constructorCalls pcs texts = calls
  generalize (pcs.map fun _ => (none : Option V)) = made
  induction calls generalizing made d with
  | nil => rfl
  | cons c calls ih =>
    rw [foldl_cons, ih, flatMap_cons, Dictionary.createTokens_append]

theorem finishRules_snd (keepTexts keepHeadmarker : Bool) (rs : List (RuleInfo S V))
    (d : Dictionary) : (finishRules pcs keepTexts keepHeadmarker rs d).2 =
      d.createTokens (rs.flatMap fun r => propertyTokens pcs r.texts) := by
  induction rs generalizing d with
  | nil => rfl
  | cons r rs ih =>
    rw [flatMap_cons, Dictionary.createTokens_append, ← constructProperties_snd]
    exact ih _

/-- The properties are no part of what is scored. -/
theorem finishRules_scored (keepTexts keepHeadmarker : Bool) (rs : List (RuleInfo S V)) (d : Dictionary) :
    (finishRules pcs keepTexts keepHeadmarker rs d).1.map RuleInfo.toScoredRule = rs.map RuleInfo.toScoredRule := by
  induction rs generalizing d with
  | nil => rfl
  | cons r rs ih =>
    rw [finishRules, map_cons, ih]
    rfl

end

/-! ## Reading a source -/

section
variable (geom : List (String × S) → (String → W) → S)

namespace GrammarInMem

variable (g : GrammarInMem S W V X) (keepTexts keepHeadmarker : Bool)

theorem readItem_tokens (st : Reading S V X)
    (item : Item S X) : (g.readItem geom keepTexts keepHeadmarker st item).tokens = st.tokens.createTokens item.tokens := by
  cases item with
  | token tok => rfl
  | syntax_ id rule => rfl
  | binary b =>
    have h : (b.index st.tokens).2 = st.tokens.createTokens b.tokens := b.index_snd st.tokens
    unfold readItem
    simp only
    split
    · split <;> exact h
    · exact h

theorem foldl_readItem_tokens (reader : List (Item S X))
    (st : Reading S V X) : (reader.foldl (g.readItem geom keepTexts keepHeadmarker) st).tokens =
      st.tokens.createTokens (reader.flatMap Item.tokens) := by
  induction reader generalizing st with
  | nil => rfl
  | cons item reader ih =>
    rw [foldl_cons, ih, readItem_tokens, flatMap_cons, Dictionary.createTokens_append]

/-- The texts of the rules that an item adds to the subgrammar, if its tokens are known. -/
def newTexts : Item S X → List (List (String × String))
  | .token _ => []
  | .syntax_ _ _ => []
  | .binary b =>
    if b.lhs.isVirtual && g.found (b.index g.tokens).1 then [] else [g.keptTexts keepTexts keepHeadmarker b.texts]

theorem readItem_texts {st : Reading S V X}
    (hst : st.tokens = g.tokens) (item : Item S X) :
    (g.readItem geom keepTexts keepHeadmarker st item).back.map RuleInfo.texts =
      st.back.map RuleInfo.texts ++ g.newTexts keepTexts keepHeadmarker item := by
  cases item with
  | token tok => exact (append_nil _).symm
  | syntax_ id rule => exact (append_nil _).symm
  | binary b =>
    unfold readItem newTexts
    rw [hst]
    simp only [b.index_isVirtual g.tokens]
    by_cases hvirtual : b.lhs.isVirtual = true
    · by_cases hfound : g.found (b.index g.tokens).1 = true
      · simp [hvirtual, hfound]
      · simp [hvirtual, hfound]
    · simp [hvirtual]

theorem foldl_readItem_texts {reader : List (Item S X)}
    (hreader : ∀ tok ∈ reader.flatMap Item.tokens, g.tokens.Has tok) {st : Reading S V X} (hst : st.tokens = g.tokens) :
    (reader.foldl (g.readItem geom keepTexts keepHeadmarker) st).back.map RuleInfo.texts =
      st.back.map RuleInfo.texts ++ reader.flatMap (g.newTexts keepTexts keepHeadmarker) := by
  induction reader generalizing st with
  | nil => exact (append_nil _).symm
  | cons item reader ih =>
    rw [flatMap_cons, forall_mem_append] at hreader
    have hnext : (g.readItem geom keepTexts keepHeadmarker st item).tokens = g.tokens := by
      rw [readItem_tokens, hst]
      exact Dictionary.createTokens_eq_iff.2 hreader.1
    rw [foldl_cons, ih hreader.2 hnext, readItem_texts geom g _ _ hst, append_assoc, flatMap_cons]

/-- Everything the source asks for is there already: the tokens of its rules, and those its new rules' properties are
made of. -/
structure Knows (g : GrammarInMem S W V X) (reader : List (Item S X)) (keepTexts keepHeadmarker : Bool) : Prop where
  items : ∀ tok ∈ reader.flatMap Item.tokens, g.tokens.Has tok
  properties : ∀ texts ∈ reader.flatMap (g.newTexts keepTexts keepHeadmarker),
    ∀ tok ∈ propertyTokens g.propConstructors texts, g.tokens.Has tok

/-- The dictionary after the reading and the properties of the new rules is the old one exactly if all was known. -/
theorem tokens_eq_iff (reader : List (Item S X)) (keepTexts keepHeadmarker : Bool)
    {names : List String} (hprior : ∀ name ∈ names, g.tokens.Has (.word .tag name)) :
    (finishRules g.propConstructors keepTexts keepHeadmarker (g.read geom keepTexts keepHeadmarker reader).back
      (readPrior (g.read geom keepTexts keepHeadmarker reader).tokens names).2).2 = g.tokens ↔
        g.Knows reader keepTexts keepHeadmarker := by
  have htexts (hitems : ∀ tok ∈ reader.flatMap Item.tokens, g.tokens.Has tok) :=
    foldl_readItem_texts geom g keepTexts keepHeadmarker hitems
      (rfl : (⟨g.tokens, [], [], g.minSyntaxId⟩ : Reading S V X).tokens = g.tokens)
  rw [finishRules_snd, readPrior_snd, read, foldl_readItem_tokens, ← Dictionary.createTokens_append,
    ← Dictionary.createTokens_append, Dictionary.createTokens_eq_iff, forall_mem_append, forall_mem_append]
  have hnames : ∀ tok ∈ names.map (FatToken.word .tag), g.tokens.Has tok := forall_mem_map.2 hprior
  -- the new rules' texts are the same on both sides once the items are known
  have hback : (∀ tok ∈ reader.flatMap Item.tokens, g.tokens.Has tok) →
      (((reader.foldl (g.readItem geom keepTexts keepHeadmarker) ⟨g.tokens, [], [], g.minSyntaxId⟩).back.flatMap
        fun r => propertyTokens g.propConstructors r.texts) =
      (reader.flatMap (g.newTexts keepTexts keepHeadmarker)).flatMap (propertyTokens g.propConstructors)) := by
    intro hitems
    rw [← (htexts hitems).trans (nil_append _), flatMap_map]
  constructor
  · rintro ⟨hitems, -, hproperties⟩
    rw [hback hitems] at hproperties
    exact ⟨hitems, fun texts htexts tok htok => hproperties tok (mem_flatMap.2 ⟨texts, htexts, htok⟩)⟩
  · rintro ⟨hitems, hproperties⟩
    refine ⟨hitems, hnames, ?_⟩
    rw [hback hitems]
    intro tok htok
    obtain ⟨texts, htexts, htok⟩ := mem_flatMap.1 htok
    exact hproperties texts htexts tok htok

end GrammarInMem

end

/-! ## Reached grammars -/

section
variable [LinearOrder S] [OrderBot S] [One S] [Mul S] [Zero W] (geom : List (String × S) → (String → W) → S)

namespace GrammarInMem

/-- A grammar that has been loaded, with any number of pushes, pops and changes of the weights since. -/
inductive Reached : GrammarInMem S W V X → Prop
  | load {g g' : GrammarInMem S W V X} {reader : List (Item S X)} {combine : String → W}
      {pc : List (PropertyConstructor V)} {keepTexts keepHeadmarker : Bool}
      (h : g.load geom reader combine pc keepTexts keepHeadmarker = .ok g') : Reached g'
  | push {g g' : GrammarInMem S W V X} {reader : List (Item S X)} {keepTexts keepHeadmarker : Bool} (hg : Reached g)
      (h : g.push geom reader keepTexts keepHeadmarker = .ok g') : Reached g'
  | pop {g g' : GrammarInMem S W V X} (hg : Reached g) (h : g.pop geom = .ok g') : Reached g'
  | updateWeights {g g' : GrammarInMem S W V X} {combine : String → W} {pc : List (PropertyConstructor V)}
      (hg : Reached g) (h : g.updateWeights geom combine pc = .ok g') : Reached g'

/-- The heuristics are those of the rules there are, and the prior is made. -/
structure Settled (g : GrammarInMem S W V X) : Prop where
  prior_has : ∀ name ∈ g.tagPrior.names, g.tokens.Has (.word .tag name)
  prior_eq : g.prior = g.tagPrior.weigh (readPrior g.tokens g.tagPrior.names).1
  heuristic : rescore geom g.scoredRules g.syntaxIds g.weights g.prior = .ok g.heuristic

variable {geom}

variable {g g' : GrammarInMem S W V X}

theorem recomputeHeuristics_eq (h : g.recomputeHeuristics geom = .ok g') :
    ∃ heuristic, rescore geom g.scoredRules g.syntaxIds g.weights
        (g.tagPrior.weigh (readPrior g.tokens g.tagPrior.names).1) = .ok heuristic ∧
      g' = { g with
        tokens := (readPrior g.tokens g.tagPrior.names).2
        prior := g.tagPrior.weigh (readPrior g.tokens g.tagPrior.names).1
        heuristic := heuristic } := by
  unfold recomputeHeuristics at h
  simp only at h
  split at h
  · next heuristic hrun =>
    cases h
    exact ⟨heuristic, hrun, rfl⟩
  · cases h

theorem Settled.recompute (h : g.recomputeHeuristics geom = .ok g') : g'.Settled geom := by
  obtain ⟨heuristic, hrun, rfl⟩ := recomputeHeuristics_eq h
  have hprior := readPrior_fst (Dictionary.Older.refl (readPrior g.tokens g.tagPrior.names).2)
  refine ⟨?_, ?_, hrun⟩
  · intro name hname
    rw [readPrior_snd]
    exact Dictionary.has_createTokens _ _ _ (mem_map_of_mem hname)
  · rw [hprior]

/-- In a later dictionary the prior is made of the same tokens, and makes none. -/
theorem Settled.readPrior_eq (h : g.Settled geom) {d : Dictionary} (hd : g.tokens.Older d) :
    (readPrior d g.tagPrior.names).1 = (readPrior g.tokens g.tagPrior.names).1 ∧
      (readPrior d g.tagPrior.names).2 = d := by
  have hsame : ∀ {d : Dictionary}, g.tokens.Older d → (readPrior d g.tagPrior.names).2 = d := by
    intro d hd
    rw [readPrior_snd]
    exact Dictionary.createTokens_eq_iff.2 (forall_mem_map.2 fun name hname => (h.prior_has name hname).mono hd)
  refine ⟨readPrior_fst ?_, hsame hd⟩
  rw [hsame (.refl _)]
  exact hd

/-- The properties made after the heuristics are recomputed do not touch them. -/
theorem Settled.finish (h : g.Settled geom) (hrules : g'.scoredRules = g.scoredRules)
    (hsyn : g'.syntaxRules = g.syntaxRules) (hweights : g'.weights = g.weights) (htag : g'.tagPrior = g.tagPrior)
    (hprior : g'.prior = g.prior) (hheuristic : g'.heuristic = g.heuristic) (htokens : g.tokens.Older g'.tokens) :
    g'.Settled geom := by
  refine ⟨?_, ?_, ?_⟩
  · rw [htag]
    exact fun name hname => (h.prior_has name hname).mono htokens
  · rw [hprior, htag, h.prior_eq, (h.readPrior_eq htokens).1]
  · rw [hrules, syntaxIds, hsyn, hweights, hprior, hheuristic]
    exact h.heuristic

variable {keepTexts keepHeadmarker : Bool} {reader : List (Item S X)}

/-- The state a push leaves, from that which its recomputation of the heuristics leaves. -/
theorem push_eq
    (h : g.push geom reader keepTexts keepHeadmarker = .ok g') :
    ∃ g2 : GrammarInMem S W V X, g2.Settled geom ∧
      g2.scoredRules = g.scoredRules ++ (g.read geom keepTexts keepHeadmarker reader).back.map RuleInfo.toScoredRule ∧
      g2.syntaxRules = g.syntaxRules ++ [(g.read geom keepTexts keepHeadmarker reader).backSyntax] ∧
      g2.weights = g.weights ∧ g2.propConstructors = g.propConstructors ∧ g2.tagPrior = g.tagPrior ∧
      g2.subgrammarDictMax = g.subgrammarDictMax ∧
      g2.tokens = (readPrior (g.read geom keepTexts keepHeadmarker reader).tokens g.tagPrior.names).2 ∧
      g' = { g2 with
        rules := g.rules ++ [(finishRules g.propConstructors keepTexts keepHeadmarker
          (g.read geom keepTexts keepHeadmarker reader).back g2.tokens).1]
        tokens := (finishRules g.propConstructors keepTexts keepHeadmarker
          (g.read geom keepTexts keepHeadmarker reader).back g2.tokens).2
        subgrammarDictMax := g.subgrammarDictMax ++ [(finishRules g.propConstructors keepTexts keepHeadmarker
          (g.read geom keepTexts keepHeadmarker reader).back g2.tokens).2.dictionaryBoundary] } := by
  unfold push at h
  simp only at h
  split at h
  · cases h
  · next g2 hrun =>
    cases h
    refine ⟨g2, .recompute hrun, ?_⟩
    obtain ⟨heuristic, -, rfl⟩ := recomputeHeuristics_eq hrun
    simp [scoredRules]

theorem Reached.settled (h : Reached geom g) : g.Settled geom := by
  have hpush : ∀ {g g' : GrammarInMem S W V X} {reader : List (Item S X)} {keepTexts keepHeadmarker : Bool},
      g.push geom reader keepTexts keepHeadmarker = .ok g' → g'.Settled geom := by
    intro g g' reader keepTexts keepHeadmarker h
    obtain ⟨g2, hsettled, hscored, -, -, -, -, -, -, rfl⟩ := push_eq h
    refine hsettled.finish ?_ rfl rfl rfl rfl rfl ?_
    · rw [hscored]
      simp [scoredRules, finishRules_scored]
    · rw [finishRules_snd]
      exact Dictionary.older_createTokens _ _
  cases h with
  | load h =>
    unfold GrammarInMem.load at h
    simp only at h
    split at h
    · cases h
    · exact hpush h
  | push _ h => exact hpush h
  | pop _ h =>
    unfold GrammarInMem.pop at h
    split at h
    · cases h
    · exact .recompute h
  | updateWeights _ h => exact .recompute h

/-! ## The pop after the push -/

/-- What the pop is to restore: the rules with their scores, the heuristics, the syntax rules and the four storages. -/
structure Restored (g g' : GrammarInMem S W V X) : Prop where
  rules : g'.rules = g.rules
  heuristic : g'.heuristic = g.heuristic
  syntaxRules : g'.syntaxRules = g.syntaxRules
  tokens : g'.tokens = g.tokens

/-- A pop brings all back but the least id and the dictionary, which is that of the end of the push, whatever has been
asked of it since. -/
theorem pop_later (hg : g.Settled geom)
    (h : g.push geom reader keepTexts keepHeadmarker = .ok g') {d : Dictionary} (hd : g'.tokens.Older d) (m : Int) :
    g.tokens.Older g'.tokens ∧ ({ g' with tokens := d, minSyntaxId := m } : GrammarInMem S W V X).pop geom =
      .ok { g with tokens := g'.tokens, minSyntaxId := m } := by
  obtain ⟨g2, -, -, hsyn, hweights, hpc, htag, -, htokens, rfl⟩ := push_eq h
  generalize hfinished : finishRules g.propConstructors keepTexts keepHeadmarker
    (g.read geom keepTexts keepHeadmarker reader).back g2.tokens = finished at hd ⊢
  have hold : g.tokens.Older finished.2 := by
    rw [← hfinished, finishRules_snd, htokens, readPrior_snd, read, foldl_readItem_tokens]
    exact ((Dictionary.older_createTokens _ _).trans (Dictionary.older_createTokens _ _)).trans
      (Dictionary.older_createTokens _ _)
  obtain ⟨hfst, hsnd⟩ := hg.readPrior_eq hold
  have hrescore := hg.heuristic
  rw [hg.prior_eq, ← hfst] at hrescore
  refine ⟨hold, ?_⟩
  unfold pop
  simp only [getLast?_concat]
  unfold recomputeHeuristics
  simp only [hd.shrink, scoredRules, syntaxIds, dropLast_concat, hsyn, hweights, htag]
  simp only [scoredRules, syntaxIds] at hrescore
  rw [hrescore, hsnd, hfst, ← hg.prior_eq, hpc]

theorem pop_of_push (hg : g.Settled geom) (h : g.push geom reader keepTexts keepHeadmarker = .ok g') :
    ∃ g'', g'.pop geom = .ok g'' ∧ g''.rules = g.rules ∧ g''.heuristic = g.heuristic ∧
      g''.syntaxRules = g.syntaxRules ∧ g''.tokens = g'.tokens :=
  ⟨_, (pop_later hg h (.refl _) g'.minSyntaxId).2, rfl, rfl, rfl, rfl⟩

/-- **A pop after a push restores the grammar exactly if the source asked for no new token.** The rest is restored
always; the storages keep what the push has made. -/
theorem push_pop_restores_iff {g g' : GrammarInMem S W V X} (hg : Reached geom g) {reader : List (Item S X)}
    {keepTexts keepHeadmarker : Bool} (h : g.push geom reader keepTexts keepHeadmarker = .ok g') :
    ∃ g'', g'.pop geom = .ok g'' ∧ (Restored g g'' ↔ g.Knows reader keepTexts keepHeadmarker) := by
  obtain ⟨g'', hpop, hrules, hheuristic, hsyn, htokens⟩ := pop_of_push hg.settled h
  obtain ⟨g2, -, -, -, -, -, -, -, htokens2, rfl⟩ := push_eq h
  refine ⟨g'', hpop, ?_⟩
  rw [← tokens_eq_iff geom g reader keepTexts keepHeadmarker hg.settled.prior_has, ← htokens2]
  constructor
  · intro hrestored
    exact htokens.symm.trans hrestored.tokens
  · intro hknown
    exact ⟨hrules, hheuristic, hsyn, htokens.trans hknown⟩

/-! ## Pushes and pops in between -/

/-- Pushes and pops that match, with the like between a push and its pop. -/
inductive Balanced (geom : List (String × S) → (String → W) → S) : GrammarInMem S W V X → GrammarInMem S W V X → Prop
  | nil {g : GrammarInMem S W V X} : Balanced geom g g
  | pushed {g g₁ g₂ g₃ g' : GrammarInMem S W V X} {reader : List (Item S X)} {keepTexts keepHeadmarker : Bool}
      (h : g.push geom reader keepTexts keepHeadmarker = .ok g₁) (hinner : Balanced geom g₁ g₂)
      (hpop : g₂.pop geom = .ok g₃) (hrest : Balanced geom g₃ g') : Balanced geom g g'

theorem Balanced.kept (h : Balanced geom g g') (hg : Reached geom g) :
    Reached geom g' ∧ ∃ d, g.tokens.Older d ∧ g' = { g with tokens := d, minSyntaxId := g'.minSyntaxId } := by
  induction h with
  | nil => exact ⟨hg, _, .refl _, rfl⟩
  | pushed h _ hpop _ ih ihrest =>
    obtain ⟨hreached, d, hd, heq⟩ := ih (hg.push h)
    obtain ⟨hold, hpop'⟩ := pop_later hg.settled h hd _
    rw [← heq, hpop] at hpop'
    cases hpop'
    obtain ⟨hrest, d', hd', heq'⟩ := ihrest (hreached.pop hpop)
    exact ⟨hrest, d', hold.trans hd', heq'⟩

/-- **A pop takes back the push it belongs to**, whatever is pushed and popped between the two: what is left of it is the
tokens that this push made, and the least id. -/
theorem Balanced.pop_restores (hg : Reached geom g) {g₁ g₂ : GrammarInMem S W V X} {reader : List (Item S X)}
    {keepTexts keepHeadmarker : Bool} (h : g.push geom reader keepTexts keepHeadmarker = .ok g₁)
    (hinner : Balanced geom g₁ g₂) : g.tokens.Older g₁.tokens ∧
      g₂.pop geom = .ok { g with tokens := g₁.tokens, minSyntaxId := g₂.minSyntaxId } := by
  obtain ⟨-, d, hd, heq⟩ := hinner.kept (hg.push h)
  rw [heq]
  exact pop_later hg.settled h hd _

end GrammarInMem

end

/-! ## A source with a known word, and one with a new word -/

/-- A source with one syntax rule, `NP → word`. -/
def npSource (id : Int) (word : String) : List (Item Nat Unit) :=
  [.syntax_ id (), .binary ⟨.word .tag "NP", .word .foreign word, none, [], [], [id]⟩]

/-- The grammar before anything is loaded. -/
def blank : GrammarInMem Nat Nat Unit Unit where
  weights _ := 1
  propConstructors := []
  tagPrior := ⟨[], fun _ _ => 1⟩
  prior _ := 1
  rules := []
  heuristic _ := 0
  tokens := .reset
  syntaxRules := []
  minSyntaxId := 0
  subgrammarDictMax := []

/-- A second rule for a word that is known is taken back without a trace. -/
theorem push_pop_restores_known : ∃ g g' g'', blank.load natGeom (npSource 1 "das") (fun _ => 1) [] false false = .ok g ∧
    g.push natGeom (npSource 2 "das") false false = .ok g' ∧ g'.pop natGeom = .ok g'' ∧ GrammarInMem.Restored g g'' := by
  obtain ⟨g, g', hload, hpush, hknows⟩ : ∃ g g', blank.load natGeom (npSource 1 "das") (fun _ => 1) [] false false = .ok g ∧
      g.push natGeom (npSource 2 "das") false false = .ok g' ∧ g.Knows (npSource 2 "das") false false :=
    ⟨_, _, rfl, rfl, by decide, by decide⟩
  obtain ⟨g'', hpop, hiff⟩ := GrammarInMem.push_pop_restores_iff (.load hload) hpush
  exact ⟨g, g', g'', hload, hpush, hpop, hiff.2 hknows⟩

/-- A rule for a new word is taken back, but the word stays in the dictionary. -/
theorem not_restored_new : ∃ g g' g'', blank.load natGeom (npSource 1 "das") (fun _ => 1) [] false false = .ok g ∧
    g.push natGeom (npSource 2 "es") false false = .ok g' ∧ g'.pop natGeom = .ok g'' ∧
    ¬ GrammarInMem.Restored g g'' := by
  refine ⟨_, _, _, rfl, rfl, rfl, fun h => ?_⟩
  have hsize := congrArg (fun d => (d.storage .foreign).size) h.tokens
  exact absurd hsize (by decide)

/-- Two sources pushed one over the other, and both taken back. -/
theorem pop_restores_nested : ∃ g g₁ g₂ g₃, blank.load natGeom (npSource 1 "das") (fun _ => 1) [] false false = .ok g ∧
    g.push natGeom (npSource 2 "es") false false = .ok g₁ ∧ g₁.push natGeom (npSource (-3) "sie") false false = .ok g₂ ∧
    g₂.pop natGeom = .ok g₃ ∧ g₃.pop natGeom = .ok { g with tokens := g₁.tokens, minSyntaxId := -3 } := by
  obtain ⟨g, g₁, g₂, g₃, hload, h₁, h₂, hpop, hid⟩ : ∃ g g₁ g₂ g₃,
      blank.load natGeom (npSource 1 "das") (fun _ => 1) [] false false = .ok g ∧
      g.push natGeom (npSource 2 "es") false false = .ok g₁ ∧ g₁.push natGeom (npSource (-3) "sie") false false = .ok g₂ ∧
      g₂.pop natGeom = .ok g₃ ∧ g₃.minSyntaxId = -3 := ⟨_, _, _, _, rfl, rfl, rfl, rfl, rfl⟩
  have hrestored := GrammarInMem.Balanced.pop_restores (.load hload) h₁ (.pushed h₂ .nil hpop .nil)
  exact ⟨g, g₁, g₂, g₃, hload, h₁, h₂, hpop, hid ▸ hrestored.2⟩

end Sbmt.Grammar
