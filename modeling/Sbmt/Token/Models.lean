import Sbmt.Token.World

/-!
# Dictionaries as lists of strings

`World.Models` says that the storages of a world are in order and what lists they are; `callOn` is what a call does to
the lists.  `next_models`: a call that returns or throws does to the storages what it does to the lists.
-/

namespace Sbmt.Token

open Sbmt.Lib Sbmt.Hash Sbmt.Grammar Option Function

def NoNul (s : String) : Prop := Char.ofNat 0 ∉ s.toList

instance (s : String) : Decidable (NoNul s) := inferInstanceAs (Decidable (_ ∉ _))

variable {D : Type} {hash : String → Nat} {lf : LoadFactor} {m m' : World D} {n : D → Dictionary} {d e : D}

/-- The storages are in order, and these are their strings. -/
def World.Models (hash : String → Nat) (m : World D) (n : D → Dictionary) : Prop :=
  ∀ a : D × TokenType, ∃ h : Good hash a (m a), h.view = (n a.1).storage a.2

/-- Each type has fewer tokens than it may have. -/
def World.Small (m : World D) : Prop := ∀ a, (m a).tokens.length < maxNormalIndex

theorem World.Models.tokens (h : m.Models hash n) (d : D) (type : TokenType) :
    (m (d, type)).tokens = ((n d).storage type).tokens := by
  obtain ⟨_, hview⟩ := h (d, type)
  exact congrArg TokenStorage.tokens hview

/-- The boundaries of `shrink`, type by type. -/
def boundaries (f n t v : IndexedToken) : Markers
  | .foreign => f.index
  | .native => n.index
  | .tag => t.index
  | .virtualTag => v.index

variable [DecidableEq D]

def setStorage (n : D → Dictionary) (d : D) (type : TokenType) (st : TokenStorage) : D → Dictionary :=
  Function.update n d ⟨Function.update (n d).storage type st⟩

/-- Two dictionaries exchanged. -/
def exchange (n : D → Dictionary) (d e : D) : D → Dictionary := Function.update (Function.update n d (n e)) e (n d)

/-- A call on the lists. -/
def callOn (n : D → Dictionary) : Op D → D → Dictionary
  | .construct d => Function.update n d .reset
  | .createToken _ _ .top => n
  | .createToken d s (.stored type) => Function.update n d ((n d).createToken (.word type s)).2
  | .findToken _ _ _ => n
  | .shrink d f n' t v => Function.update n d ((n d).shrink (boundaries f n' t v))
  | .resetStorage d => Function.update n d .reset
  | .swap d e => exchange n d e

variable {type : TokenType}

theorem World.Models.update (h : m.Models hash n) {c : Storage (D × TokenType)}
    (hc : Good hash (d, type) c) : World.Models hash (Function.update m (d, type) c) (setStorage n d type hc.view) := by
  rintro ⟨e, type'⟩
  by_cases ha : (e, type') = (d, type)
  · obtain ⟨rfl, rfl⟩ := Prod.mk.inj ha
    rw [update_self]
    refine ⟨hc, ?_⟩
    simp only [setStorage, update_self]
  · rw [update_of_ne ha]
    obtain ⟨hgood, hview⟩ := h (e, type')
    refine ⟨hgood, hview.trans ?_⟩
    by_cases hed : e = d
    · subst hed
      have htype : type' ≠ type := fun heq => ha (by rw [heq])
      simp only [setStorage, update_self, update_of_ne htype]
    · simp only [setStorage, update_of_ne hed]

variable (n d) in
/-- All four storages of a dictionary, one after the other. -/
theorem setStorage_all (st : TokenType → TokenStorage) :
    setStorage (setStorage (setStorage (setStorage n d .foreign (st .foreign)) d .native (st .native)) d .tag (st .tag)) d
      .virtualTag (st .virtualTag) = Function.update n d ⟨st⟩ := by
  funext e
  by_cases hed : e = d
  · subst hed
    simp only [setStorage, update_self]
    ext1
    funext type
    cases type <;> rfl
  · simp only [setStorage, update_of_ne hed]

/-! ## Making tokens -/

theorem createToken_stored (m : World D) (d : D) (s : String) (type : TokenType) :
    m.createToken hash lf d s (.stored type) = m.word hash lf type d s := by
  cases type <;> rfl

omit [DecidableEq D] in
theorem findToken_stored (m : World D) (d : D) (s : String) (type : TokenType) :
    m.findToken hash d s (.stored type) = m.findWord hash type d s := by
  cases type <;> rfl

variable (n d type) in
theorem createToken_lists (s : String) :
    Function.update n d ((n d).createToken (.word type s)).2 =
      setStorage n d type (((n d).storage type).getIndex s).2 := rfl

theorem World.Models.word (h : m.Models hash n) (hlf : ThreeQuarters lf) {s : String} (hnul : NoNul s)
    (hfew : ((n d).storage type).tokens.length ≤ maxNormalIndex) :
    ∃ m', m.createToken hash lf d s (.stored type) = some (indexed type (((n d).storage type).getIndex s).1, m') ∧
      m'.Models hash (Function.update n d ((n d).createToken (.word type s)).2) := by
  obtain ⟨hgood, hview⟩ := h (d, type)
  have hroom : (m (d, type)).tokens.length + 1 < 2 ^ 30 := by
    rw [h.tokens]
    simp only [maxNormalIndex, typeStride] at hfew
    omega
  obtain ⟨c, hc, hrun, hnew⟩ := hgood.getIndex hlf hnul hroom
  rw [hview] at hrun hnew
  refine ⟨Function.update m (d, type) c, ?_, ?_⟩
  · rw [createToken_stored, World.word, hrun]
    rfl
  · rw [createToken_lists, ← hnew]
    exact h.update hc

theorem indexed_ok {idx : Nat} (h : idx < maxNormalIndex) : indexed type idx = .ok (.ofIndex idx type) :=
  if_neg (Nat.not_le.2 h)

/-- The string keeps its index as others come. -/
theorem getIndex_createTokens (dict : Dictionary) (type : TokenType) (s : String) (toks : List FatToken) :
    (((dict.createToken (.word type s)).2.createTokens toks).storage type).tokens[((dict.storage type).getIndex s).1]? =
      some s := by
  obtain ⟨i, hi, hget⟩ := (Dictionary.names_createToken dict (.word type s)).mono (Dictionary.older_createTokens _ toks)
  obtain ⟨-, rfl⟩ := Token.indexed.inj hi
  exact hget

/-- The tokens of a sequence of calls, each the one of its string in the end. -/
theorem World.Models.createTokens (hlf : ThreeQuarters lf) : ∀ {calls : List (String × TokenType)} {m : World D}
    {n : D → Dictionary}, m.Models hash n → (∀ c ∈ calls, NoNul c.1) →
    (∀ type, (((n d).createTokens (calls.map fun c => .word c.2 c.1)).storage type).tokens.length ≤ maxNormalIndex) →
    ∃ toks m', World.createTokens hash lf d (calls.map fun c => (c.1, .stored c.2)) m = some (.ok toks, m') ∧
      m'.Models hash (Function.update n d ((n d).createTokens (calls.map fun c => .word c.2 c.1))) ∧
      List.Forall₂ (fun c tok => ∃ i, tok = IndexedToken.ofIndex i c.2 ∧
        (((n d).createTokens (calls.map fun c => .word c.2 c.1)).storage c.2).tokens[i]? = some c.1) calls toks
  | [], m, n, h, _, _ => by
    refine ⟨[], m, rfl, ?_, .nil⟩
    rw [List.map_nil, Dictionary.createTokens, List.foldl_nil, update_eq_self]
    exact h
  | (s, type) :: calls, m, n, h, hnul, hfew => by
    have hold : (n d).Older ((n d).createTokens (((s, type) :: calls).map fun c => .word c.2 c.1)) :=
      Dictionary.older_createTokens _ _
    obtain ⟨m1, hrun1, h1⟩ := h.word (d := d) hlf (hnul _ List.mem_cons_self) ((hold type).length_le.trans (hfew type))
    have hget := getIndex_createTokens (n d) type s (calls.map fun c => .word c.2 c.1)
    have hidx : ((n d).storage type |>.getIndex s).1 < maxNormalIndex :=
      (List.getElem?_eq_some_iff.1 hget).1.trans_le (hfew type)
    obtain ⟨toks, m', hrun', h', htoks⟩ := World.Models.createTokens hlf h1 (fun c hc => hnul c (List.mem_cons_of_mem _ hc))
      (by rw [update_self]; exact hfew)
    rw [update_self, update_idem] at h'
    rw [update_self] at htoks
    refine ⟨.ofIndex ((n d).storage type |>.getIndex s).1 type :: toks, m', ?_, h', .cons ⟨_, rfl, hget⟩ htoks⟩
    rw [List.map_cons, World.createTokens, hrun1, indexed_ok hidx]
    show (World.createTokens hash lf d (calls.map fun c => (c.1, .stored c.2)) m1).map _ = _
    rw [hrun']
    rfl

/-! ## Each call -/

theorem specialTokens_noNul : ∀ c ∈ specialTokens, NoNul c.1 := by
  intro c hc
  simp only [specialTokens, List.mem_cons, List.not_mem_nil, or_false] at hc
  rcases hc with rfl | rfl | rfl | rfl | rfl | rfl <;> simp [NoNul]

theorem specialTokens_words : (specialTokens.map fun c => FatToken.word c.2 c.1) = Dictionary.specialTokens := rfl

omit [DecidableEq D] in
/-- A call makes one string at most. -/
theorem getIndex_length (st : TokenStorage) (s : String) : (st.getIndex s).2.tokens.length ≤ st.tokens.length + 1 := by
  unfold TokenStorage.getIndex
  split
  · exact Nat.le_succ _
  · exact List.length_append.le

theorem createTokens_length (type : TokenType) : ∀ (toks : List FatToken) (dict : Dictionary),
    ((dict.createTokens toks).storage type).tokens.length ≤ (dict.storage type).tokens.length + toks.length
  | [], _ => Nat.le_refl _
  | tok :: toks, dict => by
    have hfirst : ((dict.createToken tok).2.storage type).tokens.length ≤ (dict.storage type).tokens.length + 1 := by
      cases tok with
      | top => exact Nat.le_succ _
      | word type' s =>
        by_cases htype : type = type'
        · subst htype
          simp only [Dictionary.createToken, update_self]
          exact getIndex_length _ s
        · simp only [Dictionary.createToken, update_of_ne htype]
          exact Nat.le_succ _
    have hrest := createTokens_length type toks (dict.createToken tok).2
    have hstep : dict.createTokens (tok :: toks) = (dict.createToken tok).2.createTokens toks := rfl
    rw [hstep, List.length_cons]
    omega

theorem reset_length (type : TokenType) : (Dictionary.reset.storage type).tokens.length ≤ maxNormalIndex :=
  (createTokens_length type Dictionary.specialTokens ⟨fun _ => .reset⟩).trans <| by
    show 0 + 6 ≤ maxNormalIndex
    decide

/-- From no strings, the special tokens make a new dictionary. -/
theorem World.Models.initSpecialTokens (hlf : ThreeQuarters lf) (h : m.Models hash (Function.update n d ⟨fun _ => .reset⟩)) :
    ∃ r, World.initSpecialTokens hash lf m d = some r ∧ r.2.Models hash (Function.update n d .reset) := by
  obtain ⟨toks, m', hrun, h', -⟩ := h.createTokens (d := d) hlf specialTokens_noNul (by
    rw [update_self]
    exact reset_length)
  rw [update_self, update_idem] at h'
  exact ⟨_, hrun, h'⟩

theorem World.Models.construct (h : m.Models hash n) (hlf : ThreeQuarters lf) (d : D) :
    ∃ m', m.construct hash lf d = some m' ∧ m'.Models hash (Function.update n d .reset) := by
  obtain ⟨tbl, hcreate, hgood⟩ := create_good (D × TokenType) hash hlf
  have hfresh : World.Models hash (fun a => if a.1 = d then ⟨[], tbl, a⟩ else m a)
      (Function.update n d ⟨fun _ => .reset⟩) := by
    rintro ⟨e, type⟩
    by_cases hed : e = d
    · subst hed
      simp only [if_pos, update_self]
      exact hgood (e, type)
    · simp only [if_neg hed, update_of_ne hed]
      exact h (e, type)
  obtain ⟨r, hrun, h'⟩ := hfresh.initSpecialTokens hlf
  refine ⟨r.2, ?_, h'⟩
  rw [World.construct, hcreate, bind_some, hrun, map_some]

theorem World.Models.reset (h : m.Models hash n) (d : D) (type : TokenType) :
    World.Models hash (Store.reset m (d, type)) (setStorage n d type .reset) := by
  obtain ⟨hgood, -⟩ := h (d, type)
  obtain ⟨c, hc, hrun, hview⟩ := hgood.reset
  rw [hrun, ← hview]
  exact h.update hc

theorem World.Models.resetStorage (h : m.Models hash n) (hlf : ThreeQuarters lf) (d : D) :
    ∃ m', m.resetStorage hash lf d = some m' ∧ m'.Models hash (Function.update n d .reset) := by
  have hempty := (((h.reset d .foreign).reset d .native).reset d .tag).reset d .virtualTag
  rw [setStorage_all n d fun _ => .reset] at hempty
  obtain ⟨r, hrun, h'⟩ := hempty.initSpecialTokens hlf
  refine ⟨r.2, ?_, h'⟩
  rw [World.resetStorage, hrun, map_some]

omit [DecidableEq D] in
theorem World.Models.size (h : m.Models hash n) (d : D) (type : TokenType) :
    (m (d, type)).tokens.length = ((n d).storage type).size := congrArg List.length (h.tokens d type)

theorem World.Models.exists_shrinkStorage (lf : LoadFactor) (h : m.Models hash n) (type : TokenType)
    (newEnd : Nat) (hend : newEnd ≤ ((n d).storage type).size) : ∃ m' : World D, Store.shrink hash m (d, type) newEnd = some m' ∧
      m'.Models hash (setStorage n d type (((n d).storage type).shrink newEnd)) := by
  obtain ⟨hgood, hview⟩ := h (d, type)
  obtain ⟨c, hc, hrun, hnew⟩ := hgood.shrink lf ((h.size d type).symm ▸ hend)
  refine ⟨Function.update m (d, type) c, hrun, ?_⟩
  rw [← hview, ← hnew]
  exact h.update hc

/-- A storage is cut only inside. -/
theorem World.Models.shrinkStorage (lf : LoadFactor) (h : m.Models hash n) {newEnd : Nat}
    (hrun : Store.shrink hash m (d, type) newEnd = some m') : newEnd ≤ ((n d).storage type).size ∧
      m'.Models hash (setStorage n d type (((n d).storage type).shrink newEnd)) := by
  have hend : newEnd ≤ ((n d).storage type).size := by
    rw [← h.size d type]
    by_contra hno
    rw [Store.shrink, if_neg hno] at hrun
    cases hrun
  obtain ⟨m'', hrun', h'⟩ := h.exists_shrinkStorage lf type newEnd hend
  obtain rfl : m' = m'' := mem_unique hrun hrun'
  exact ⟨hend, h'⟩

variable (n d) in
theorem setStorage_other {type' : TokenType} (st : TokenStorage) (h : type ≠ type') :
    (setStorage n d type' st d).storage type = (n d).storage type := by
  simp only [setStorage, update_self, update_of_ne h]

theorem World.Models.shrink (lf : LoadFactor) (h : m.Models hash n) (d : D) {f n' t v : IndexedToken}
    (hrun : m.shrink hash d f n' t v = some m') :
    (∀ type, boundaries f n' t v type ≤ ((n d).storage type).size) ∧
      m'.Models hash (Function.update n d ((n d).shrink (boundaries f n' t v))) := by
  obtain ⟨m1, hrun1, hrun⟩ := bind_eq_some_iff.1 hrun
  obtain ⟨m2, hrun2, hrun⟩ := bind_eq_some_iff.1 hrun
  obtain ⟨m3, hrun3, hrun4⟩ := bind_eq_some_iff.1 hrun
  obtain ⟨hf, h1⟩ := h.shrinkStorage lf hrun1
  obtain ⟨hn, h2⟩ := h1.shrinkStorage lf hrun2
  obtain ⟨ht, h3⟩ := h2.shrinkStorage lf hrun3
  obtain ⟨hv, h4⟩ := h3.shrinkStorage lf hrun4
  simp only [setStorage_other, ne_eq, reduceCtorEq, not_false_eq_true] at hn ht hv h4
  constructor
  · intro type
    cases type with
    | foreign => exact hf
    | native => exact hn
    | tag => exact ht
    | virtualTag => exact hv
  · rw [← setStorage_all]
    exact h4

/-- Within the storages `shrink` returns. -/
theorem World.Models.exists_shrink (lf : LoadFactor) (h : m.Models hash n) (d : D) {f n' t v : IndexedToken}
    (hend : ∀ type, boundaries f n' t v type ≤ ((n d).storage type).size) : ∃ m', m.shrink hash d f n' t v = some m' := by
  obtain ⟨m1, hrun1, h1⟩ := h.exists_shrinkStorage lf .foreign f.index (hend .foreign)
  obtain ⟨m2, hrun2, h2⟩ := h1.exists_shrinkStorage lf .native n'.index (by
    rw [setStorage_other _ _ _ (by decide)]
    exact hend .native)
  obtain ⟨m3, hrun3, h3⟩ := h2.exists_shrinkStorage lf .tag t.index (by
    rw [setStorage_other _ _ _ (by decide), setStorage_other _ _ _ (by decide)]
    exact hend .tag)
  obtain ⟨m4, hrun4, -⟩ := h3.exists_shrinkStorage lf .virtualTag v.index (by
    rw [setStorage_other _ _ _ (by decide), setStorage_other _ _ _ (by decide), setStorage_other _ _ _ (by decide)]
    exact hend .virtualTag)
  refine ⟨m4, ?_⟩
  unfold World.shrink
  rw [show Store.shrink hash m (d, .foreign) f.index = some m1 from hrun1, bind_some, hrun2, bind_some, hrun3,
    bind_some, hrun4]

theorem World.Models.swapStorages (h : m.Models hash n) (d e : D) (type : TokenType) :
    World.Models hash (Store.swap m (d, type) (e, type))
      (setStorage (setStorage n d type ((n e).storage type)) e type ((n d).storage type)) := by
  obtain ⟨hd, hviewd⟩ := h (d, type)
  obtain ⟨he, hviewe⟩ := h (e, type)
  obtain ⟨c, c', hc, hc', hrun, hview, hview'⟩ := hd.swap he
  rw [hrun, ← hviewd, ← hviewe, ← hview, ← hview']
  exact (h.update hc).update hc'

/-- Their storages of one type exchanged. -/
def exchangeType (n : D → Dictionary) (d e : D) (type : TokenType) : D → Dictionary :=
  setStorage (setStorage n d type ((n e).storage type)) e type ((n d).storage type)

variable {n : D → Dictionary}

theorem exchangeType_other {d e i : D} {type' : TokenType} (h : type' ≠ type) :
    (exchangeType n d e type i).storage type' = (n i).storage type' := by
  have hset : ∀ (n : D → Dictionary) (d : D) (st : TokenStorage), (setStorage n d type st i).storage type' =
      (n i).storage type' := by
    intro n d st
    by_cases hid : i = d
    · subst hid
      exact setStorage_other n i st h
    · simp only [setStorage, update_of_ne hid]
  exact (hset _ _ _).trans (hset _ _ _)

theorem exchangeType_self {d e i : D} : (exchangeType n d e type i).storage type = (exchange n d e i).storage type := by
  by_cases hie : i = e
  · subst hie
    simp only [exchangeType, exchange, setStorage, update_self]
  · by_cases hid : i = d
    · subst hid
      simp only [exchangeType, exchange, setStorage, update_self, update_of_ne hie]
    · simp only [exchangeType, exchange, setStorage, update_of_ne hie, update_of_ne hid]

theorem exchange_congr {n' : D → Dictionary} (h : ∀ i, (n' i).storage type = (n i).storage type)
    (d e i : D) : (exchange n' d e i).storage type = (exchange n d e i).storage type := by
  unfold exchange
  by_cases hie : i = e
  · subst hie
    simp only [update_self, h]
  · by_cases hid : i = d
    · subst hid
      simp only [update_of_ne hie, update_self, h]
    · simp only [update_of_ne hie, update_of_ne hid, h]

theorem World.Models.swap (h : m.Models hash n) (d e : D) : (m.swap d e).Models hash (exchange n d e) := by
  have h1 : World.Models hash _ (exchangeType n d e .foreign) := h.swapStorages d e .foreign
  have h2 : World.Models hash _ (exchangeType _ d e .native) := h1.swapStorages d e .native
  have h3 : World.Models hash _ (exchangeType _ d e .tag) := h2.swapStorages d e .tag
  have h4 : World.Models hash _ (exchangeType _ d e .virtualTag) := h3.swapStorages d e .virtualTag
  rintro ⟨i, type⟩
  obtain ⟨hgood, hview⟩ := h4 (i, type)
  refine ⟨hgood, hview.trans ?_⟩
  have hother : ∀ {type' : TokenType} (_ : type ≠ type') (n : D → Dictionary) (i : D),
      (exchangeType n d e type' i).storage type = (n i).storage type := fun h n i => exchangeType_other h
  cases type with
  | foreign =>
    rw [hother (by decide), hother (by decide), hother (by decide), exchangeType_self]
  | native =>
    rw [hother (by decide), hother (by decide), exchangeType_self]
    exact exchange_congr (hother (by decide) _) d e i
  | tag =>
    rw [hother (by decide), exchangeType_self]
    exact exchange_congr (fun i => (hother (by decide) _ i).trans (hother (by decide) _ i)) d e i
  | virtualTag =>
    rw [exchangeType_self]
    exact exchange_congr
      (fun i => ((hother (by decide) _ i).trans (hother (by decide) _ i)).trans (hother (by decide) _ i)) d e i

/-- **A call that returns or throws does to the storages what it does to the lists.** -/
theorem next_models (hlf : ThreeQuarters lf) (h : m.Models hash n) (hsmall : m.Small) {op : Op D}
    (hnul : ∀ d s type, op = .createToken d s (.stored type) → NoNul s) (hrun : m.next hash lf op = some m') :
    m'.Models hash (callOn n op) := by
  cases op with
  | construct d =>
    obtain ⟨m'', hrun', h'⟩ := h.construct hlf d
    obtain rfl : m' = m'' := mem_unique hrun hrun'
    exact h'
  | createToken d s t =>
    cases t with
    | top =>
      obtain rfl : m = m' := Option.some.inj hrun
      exact h
    | stored type =>
      have hfew : ((n d).storage type).tokens.length ≤ maxNormalIndex := by
        rw [← h.tokens]
        exact (hsmall (d, type)).le
      obtain ⟨m'', hrun', h'⟩ := h.word hlf (hnul d s type rfl) hfew
      obtain ⟨r, hr, rfl⟩ := map_eq_some_iff.1 hrun
      obtain rfl := mem_unique hr hrun'
      exact h'
  | findToken d s t =>
    obtain ⟨-, -, rfl⟩ := map_eq_some_iff.1 hrun
    exact h
  | shrink d f n' t v => exact (h.shrink lf d hrun).2
  | resetStorage d =>
    obtain ⟨m'', hrun', h'⟩ := h.resetStorage hlf d
    obtain rfl : m' = m'' := mem_unique hrun hrun'
    exact h'
  | swap d e =>
    obtain rfl : m.swap d e = m' := Option.some.inj hrun
    exact h.swap d e

end Sbmt.Token
