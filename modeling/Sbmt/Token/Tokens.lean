import Sbmt.Token.Models

/-!
# What a token stands for

`IsTokenOf`: the token of a string and a type, by all that the members say.  As long as a dictionary's storage is not cut
or reset below it, the token stays that of its string, also when dictionaries are exchanged (`Op.follow`).

`create_token` with `top_token` does not look at the string: there is one such token, with its own label
(`not_label_createToken`).
-/

namespace Sbmt.Token

open Sbmt.Lib Sbmt.Hash Sbmt.Grammar List Function Option

variable {D : Type} [DecidableEq D]

/-- The token's label and type, and the token that is made or found for them; making it changes nothing. -/
structure IsTokenOf (hash : String → Nat) (lf : LoadFactor) (m : World D) (d : D) (tok : IndexedToken) (s : String)
    (type : TokenType) : Prop where
  label : m.label d tok = some s
  type_eq : tok.type = .stored type
  create : m.createToken hash lf d s (.stored type) = some (.ok tok, m)
  find : m.findToken hash d s (.stored type) = some (.ok tok)

/-- The dictionary that has the token after a call, if one has. -/
def Op.follow (type : TokenType) (idx : Nat) (d : D) : Op D → Option D
  | .construct e => if e = d then none else some d
  | .resetStorage e => if e = d then none else some d
  | .createToken _ _ _ => some d
  | .findToken _ _ _ => some d
  | .shrink e f n t v => if e = d ∧ boundaries f n t v type ≤ idx then none else some d
  | .swap e e' => some (if d = e' then e else if d = e then e' else d)

/-- The strings that calls make tokens of have no NUL. -/
def Op.NoNul (op : Op D) : Prop := ∀ d s type, op = .createToken d s (.stored type) → Token.NoNul s

variable {hash : String → Nat} {lf : LoadFactor} {m m' : World D} {n : D → Dictionary} {d : D} {s : String}
  {type : TokenType} {tok : IndexedToken}

/-- The storages are in order, and have room. -/
structure InOrder (hash : String → Nat) (m : World D) : Prop where
  models : ∃ n, m.Models hash n
  noNul : ∀ a, ∀ s ∈ (m a).tokens, Token.NoNul s
  room : ∀ a, (m a).tokens.length ≤ maxNormalIndex

section
omit [DecidableEq D]

theorem InOrder.good (h : InOrder hash m) (a : D × TokenType) : Good hash a (m a) := by
  obtain ⟨n, hn⟩ := h.models
  exact (hn a).1

theorem findWord_of_none (h : m.findIndex hash (d, type) s = some none) :
    ∃ e, m.findWord hash type d s = some (.error e) := by
  unfold World.findWord Store.getIndexConst
  rw [h, map_some, map_some]
  exact ⟨_, rfl⟩

theorem findWord_of_some {i : Nat} (h : m.findIndex hash (d, type) s = some (some i)) :
    m.findWord hash type d s = some (indexed type i) := by
  unfold World.findWord Store.getIndexConst
  rw [h, map_some, map_some]
  generalize indexed type = f
  rfl

end

theorem word_of_some {i : Nat} (h : m.findIndex hash (d, type) s = some (some i)) :
    m.word hash lf type d s = some (indexed type i, m) := by
  unfold World.word Store.getIndex
  rw [h]
  rfl

omit [DecidableEq D] in
theorem label_of_type (h : tok.type = .stored type) : m.label d tok = m.getToken (d, type) tok.index := by
  unfold World.label
  rw [h]

/-- A token is known by the place of its string. -/
theorem isTokenOf_iff (h : InOrder hash m) :
    IsTokenOf hash lf m d tok s type ↔ ∃ i, tok = .ofIndex i type ∧ (m (d, type)).tokens[i]? = some s := by
  have hgood := h.good (d, type)
  constructor
  · rintro ⟨-, -, -, hfind⟩
    rw [findToken_stored] at hfind
    have hindex := hgood.findIndex s
    by_cases hs : s ∈ (m (d, type)).tokens
    · rw [if_pos hs] at hindex
      have hlt : (m (d, type)).tokens.idxOf s < maxNormalIndex :=
        (idxOf_lt_length_of_mem hs).trans_le (h.room (d, type))
      rw [findWord_of_some hindex, indexed_ok hlt] at hfind
      exact ⟨_, (Except.ok.inj (Option.some.inj hfind)).symm, getElem?_idxOf hs⟩
    · rw [if_neg hs] at hindex
      obtain ⟨e, he⟩ := findWord_of_none hindex
      rw [he] at hfind
      cases Option.some.inj hfind
  · rintro ⟨i, rfl, hget⟩
    have hi : i < maxNormalIndex := (List.getElem?_eq_some_iff.1 hget).1.trans_le (h.room (d, type))
    have hfound : m.findIndex hash (d, type) s = some (some i) := by
      rw [hgood.findIndex, if_pos (mem_of_getElem? hget), idxOf_eq_of_getElem? hgood.nodup hget]
    refine ⟨?_, IndexedToken.ofIndex_type hi.le, ?_, ?_⟩
    · rw [label_of_type (IndexedToken.ofIndex_type hi.le), IndexedToken.ofIndex_index hi.le]
      exact hget
    · rw [createToken_stored, word_of_some hfound, indexed_ok hi]
    · rw [findToken_stored, findWord_of_some hfound, indexed_ok hi]

/-! ## What a token lives through -/

/-- The strings of a new token are as they were, before the new one. -/
theorem mem_createToken {dict : Dictionary} {tok : FatToken} (hs : s ∈ ((dict.createToken tok).2.storage type).tokens) :
    s ∈ (dict.storage type).tokens ∨ tok = .word type s := by
  cases tok with
  | top => exact .inl hs
  | word type' s' =>
    by_cases htype : type = type'
    · subst htype
      simp only [Dictionary.createToken, update_self, TokenStorage.getIndex] at hs
      split at hs
      · exact .inl hs
      · rcases mem_append.1 hs with hs | hs
        · exact .inl hs
        · rw [mem_singleton.1 hs]
          exact .inr rfl
    · simp only [Dictionary.createToken, update_of_ne htype] at hs
      exact .inl hs

theorem mem_createTokens : ∀ {toks : List FatToken} {dict : Dictionary},
    s ∈ ((dict.createTokens toks).storage type).tokens → s ∈ (dict.storage type).tokens ∨ .word type s ∈ toks
  | [], _, hs => .inl hs
  | tok :: toks, dict, hs => by
    have hrest : s ∈ (((dict.createToken tok).2.createTokens toks).storage type).tokens := hs
    rcases mem_createTokens hrest with hs | hs
    · rcases mem_createToken hs with hs | rfl
      · exact .inl hs
      · exact .inr mem_cons_self
    · exact .inr (mem_cons_of_mem tok hs)

theorem reset_noNul (hs : s ∈ (Dictionary.reset.storage type).tokens) : Token.NoNul s := by
  rcases mem_createTokens hs with hs | hs
  · cases hs
  · rw [← specialTokens_words] at hs
    obtain ⟨c, hc, heq⟩ := mem_map.1 hs
    obtain ⟨-, rfl⟩ := FatToken.word.inj heq
    exact specialTokens_noNul c hc

theorem callOn_noNul {op : Op D} (hnul : op.NoNul) (h : ∀ d type, ∀ s ∈ ((n d).storage type).tokens, Token.NoNul s) :
    ∀ d type, ∀ s ∈ ((callOn n op d).storage type).tokens, Token.NoNul s := by
  intro i type s hs
  -- a call sets the strings of one dictionary, or exchanges two
  have hset : ∀ {d : D} {dict : Dictionary}, s ∈ ((update n d dict i).storage type).tokens →
      (s ∈ (dict.storage type).tokens → Token.NoNul s) → Token.NoNul s := by
    intro d dict hs hdict
    by_cases hid : i = d
    · subst hid
      rw [update_self] at hs
      exact hdict hs
    · rw [update_of_ne hid] at hs
      exact h i type s hs
  cases op with
  | construct d => exact hset hs reset_noNul
  | createToken d s' t =>
    cases t with
    | top => exact h i type s hs
    | stored type' =>
      refine hset hs fun hs => ?_
      rcases mem_createToken hs with hs | heq
      · exact h d type s hs
      · obtain ⟨rfl, rfl⟩ := FatToken.word.inj heq
        exact hnul d s' type' rfl
  | findToken d s' t => exact h i type s hs
  | shrink d f n' t v => exact hset hs fun hs => h d type s (mem_of_mem_take hs)
  | resetStorage d => exact hset hs reset_noNul
  | swap d e =>
    simp only [callOn, exchange] at hs
    by_cases hie : i = e
    · subst hie
      rw [update_self] at hs
      exact h d type s hs
    · rw [update_of_ne hie] at hs
      exact hset hs (h e type s)

/-- A string stays at its place while nothing is cut below it. -/
theorem callOn_follow {op : Op D} {d' : D} {i : Nat} (h : ((n d).storage type).tokens[i]? = some s)
    (hfollow : op.follow type i d = some d') : ((callOn n op d').storage type).tokens[i]? = some s := by
  cases op with
  | construct e =>
    simp only [Op.follow] at hfollow
    split at hfollow
    · cases hfollow
    · next hne =>
      obtain rfl := Option.some.inj hfollow
      simpa only [callOn, update_of_ne (Ne.symm hne)] using h
  | createToken e s' t =>
    obtain rfl := Option.some.inj hfollow
    cases t with
    | top => exact h
    | stored type' =>
      simp only [callOn]
      by_cases hde : d = e
      · subst hde
        rw [update_self]
        obtain ⟨rest, hrest⟩ := Dictionary.older_createToken (n d) (.word type' s') type
        rw [← hrest, getElem?_append_left (List.getElem?_eq_some_iff.1 h).1, h]
      · rwa [update_of_ne hde]
  | findToken e s' t =>
    obtain rfl := Option.some.inj hfollow
    exact h
  | shrink e f n' t v =>
    simp only [Op.follow] at hfollow
    split at hfollow
    · cases hfollow
    · next hcut =>
      obtain rfl := Option.some.inj hfollow
      simp only [callOn]
      by_cases hde : d = e
      · subst hde
        have hlt : i < boundaries f n' t v type := Nat.lt_of_not_le fun hle => hcut ⟨rfl, hle⟩
        rw [update_self]
        simpa only [Dictionary.shrink, TokenStorage.shrink, getElem?_take_of_lt hlt] using h
      · rwa [update_of_ne hde]
  | resetStorage e =>
    simp only [Op.follow] at hfollow
    split at hfollow
    · cases hfollow
    · next hne =>
      obtain rfl := Option.some.inj hfollow
      simpa only [callOn, update_of_ne (Ne.symm hne)] using h
  | swap e e' =>
    obtain rfl := Option.some.inj hfollow
    simp only [callOn, exchange]
    by_cases hde' : d = e'
    · subst hde'
      rw [if_pos rfl]
      by_cases hed : e = d
      · subst hed
        rwa [update_self]
      · rwa [update_of_ne hed, update_self]
    · rw [if_neg hde']
      by_cases hde : d = e
      · subst hde
        rwa [if_pos rfl, update_self]
      · rwa [if_neg hde, update_of_ne hde', update_of_ne hde]

/-- A call keeps the storages in order, and the strings that it does not remove at their places. -/
theorem InOrder.next (hlf : ThreeQuarters lf) (h : InOrder hash m) {op : Op D} (hnul : op.NoNul) (hsmall : m.Small)
    (hsmall' : m'.Small) (hrun : m.next hash lf op = some m') :
    InOrder hash m' ∧ ∀ {d d' type i s}, (m (d, type)).tokens[i]? = some s → op.follow type i d = some d' →
      (m' (d', type)).tokens[i]? = some s := by
  obtain ⟨⟨n, hn⟩, hclean, -⟩ := h
  have hn' := next_models hlf hn hsmall hnul hrun
  refine ⟨⟨⟨_, hn'⟩, ?_, fun a => (hsmall' a).le⟩, ?_⟩
  · rintro ⟨d, type⟩ s hs
    rw [hn'.tokens] at hs
    refine callOn_noNul hnul (fun d type s hs => ?_) d type s hs
    rw [← hn.tokens] at hs
    exact hclean (d, type) s hs
  · intro d d' type i s hget hfollow
    rw [hn.tokens] at hget
    rw [hn'.tokens]
    exact callOn_follow hget hfollow

theorem InOrder.run (hlf : ThreeQuarters lf) : ∀ {ops : List (Op D)} {m m' : World D}, InOrder hash m →
    Machine.Throughout (World.next hash lf) World.Small ops m → (∀ op ∈ ops, op.NoNul) →
    Machine.run (World.next hash lf) ops m = some m' →
    InOrder hash m' ∧ ∀ {d d' type i s}, (m (d, type)).tokens[i]? = some s →
      ops.foldlM (fun d op => op.follow type i d) d = some d' → (m' (d', type)).tokens[i]? = some s
  | [], m, m', h, _, _, hrun => by
    obtain rfl := Option.some.inj hrun
    refine ⟨h, fun hget hfollow => ?_⟩
    obtain rfl := Option.some.inj hfollow
    exact hget
  | op :: ops, m, m', h, hsmall, hnul, hrun => by
    obtain ⟨m1, hnext, hrest⟩ := bind_eq_some_iff.1 hrun
    have hsmall1 := hsmall.2 m1 hnext
    obtain ⟨h1, hstep⟩ := h.next hlf (hnul op mem_cons_self) hsmall.1 hsmall1.first hnext
    obtain ⟨h', hsteps⟩ := h1.run hlf hsmall1 (fun op' hop' => hnul op' (mem_cons_of_mem op hop')) hrest
    refine ⟨h', fun hget hfollow => ?_⟩
    obtain ⟨d1, hfollow1, hfollow'⟩ := bind_eq_some_iff.1 hfollow
    exact hsteps (hstep hget hfollow1) hfollow'

/-! ## Cutting, and making the tokens again -/

/-- The string that was cut first goes back to its place. -/
theorem createToken_shrink {dict : Dictionary} {b : Markers} (hcut : (dict.storage type).tokens[b type]? = some s) :
    ((dict.shrink b).createToken (.word type s)).2 = dict.shrink (update b type (b type + 1)) := by
  have hsplit : (dict.storage type).tokens.take (b type + 1) = (dict.storage type).tokens.take (b type) ++ [s] := by
    rw [take_add_one, hcut]
    rfl
  have hnew : s ∉ (dict.storage type).tokens.take (b type) := by
    intro hs
    have hnodup := ((dict.storage type).nodup.sublist (take_sublist (b type + 1) _))
    rw [hsplit] at hnodup
    exact (nodup_append.1 hnodup).2.2 s hs s (mem_singleton_self s) rfl
  have hindex : (((dict.shrink b).storage type).getIndex s).2 = (dict.storage type).shrink (b type + 1) := by
    rw [TokenStorage.getIndex, dif_neg (show s ∉ ((dict.shrink b).storage type).tokens from hnew)]
    exact TokenStorage.ext hsplit.symm
  ext1
  funext type'
  show update (dict.shrink b).storage type _ type' = _
  by_cases htype : type' = type
  · subst htype
    rw [hindex]
    simp only [Dictionary.shrink, update_self]
  · simp only [Dictionary.shrink, update_of_ne htype]

/-- The removed strings, made again type by type in their order, make the dictionary it was. -/
theorem createTokens_shrink (dict : Dictionary) : ∀ {calls : List (String × TokenType)} {b : Markers},
    (∀ type, b type ≤ (dict.storage type).size) →
    (∀ type, (calls.filter fun c => c.2 = type).map Prod.fst = (dict.storage type).tokens.drop (b type)) →
    (dict.shrink b).createTokens (calls.map fun c => .word c.2 c.1) = dict
  | [], b, hb, hcalls => by
    have hall : b = dict.dictionaryBoundary := by
      funext type
      have hlen := congrArg List.length (hcalls type)
      rw [length_drop] at hlen
      have hle := hb type
      simp only [TokenStorage.size, Dictionary.dictionaryBoundary] at hle ⊢
      have hzero : 0 = (dict.storage type).tokens.length - b type := hlen
      omega
    rw [hall]
    exact Dictionary.shrink_dictionaryBoundary dict
  | (s, type) :: calls, b, hb, hcalls => by
    have hself := hcalls type
    rw [filter_cons_of_pos (by simp)] at hself
    have hcut : (dict.storage type).tokens[b type]? = some s := by
      rw [← head?_drop, ← hself]
      rfl
    show ((dict.shrink b).createToken (.word type s)).2.createTokens _ = dict
    rw [createToken_shrink hcut]
    refine createTokens_shrink dict (fun type' => ?_) fun type' => ?_
    · by_cases htype : type' = type
      · subst htype
        rw [update_self]
        exact (List.getElem?_eq_some_iff.1 hcut).1
      · rw [update_of_ne htype]
        exact hb type'
    · by_cases htype : type' = type
      · subst htype
        rw [update_self, ← tail_drop, ← hself]
        rfl
      · rw [update_of_ne htype, ← hcalls type', filter_cons_of_neg]
        simpa using Ne.symm htype

/-! ## The tokens of a run -/

theorem start_inOrder (D : Type) [DecidableEq D] (hash : String → Nat) (hlf : ThreeQuarters lf) :
    ∃ m0 : World D, World.start D lf = some m0 ∧ InOrder hash m0 ∧ m0.Models hash fun _ => ⟨fun _ => .reset⟩ := by
  obtain ⟨tbl, hcreate, hgood⟩ := create_good (D × TokenType) hash hlf
  refine ⟨fun a => ⟨[], tbl, a⟩, ?_, ⟨⟨fun _ => ⟨fun _ => .reset⟩, hgood⟩, fun _ _ hs => ?_, fun _ => Nat.zero_le _⟩, hgood⟩
  · rw [World.start, hcreate, map_some]
  · cases hs

/-- A call makes the token of its string. -/
theorem InOrder.createToken (hlf : ThreeQuarters lf) (h : InOrder hash m) (hsmall : m.Small) (d : D) (hs : Token.NoNul s)
    (type : TokenType) : ∃ tok m', m.createToken hash lf d s (.stored type) = some (.ok tok, m') ∧
      IsTokenOf hash lf m' d tok s type := by
  obtain ⟨⟨n, hn⟩, hclean, -⟩ := h
  have hfew : ((n d).storage type).tokens.length < maxNormalIndex := by
    rw [← hn.tokens]
    exact hsmall (d, type)
  obtain ⟨m', hrun, hn'⟩ := hn.word (d := d) hlf hs hfew.le
  have hget : (m' (d, type)).tokens[((n d).storage type |>.getIndex s).1]? = some s := by
    rw [hn'.tokens, update_self]
    exact getIndex_createTokens (n d) type s []
  have hroom : ∀ a, (m' a).tokens.length ≤ maxNormalIndex := by
    rintro ⟨e, type'⟩
    rw [hn'.tokens]
    by_cases hed : e = d
    · subst hed
      rw [update_self]
      refine (createTokens_length type' [.word type s] (n e)).trans ?_
      rw [← hn.tokens]
      exact hsmall (e, type')
    · rw [update_of_ne hed, ← hn.tokens]
      exact (hsmall (e, type')).le
  have hidx : ((n d).storage type |>.getIndex s).1 < maxNormalIndex :=
    (List.getElem?_eq_some_iff.1 hget).1.trans_le (hroom (d, type))
  rw [indexed_ok hidx] at hrun
  refine ⟨_, m', hrun, (isTokenOf_iff ⟨⟨_, hn'⟩, ?_, hroom⟩).2 ⟨_, rfl, hget⟩⟩
  rintro ⟨e, type'⟩ s' hs'
  rw [hn'.tokens] at hs'
  have hop : Op.NoNul (.createToken d s (.stored type)) := by
    rintro _ _ _ heq
    cases heq
    exact hs
  have hbefore : ∀ d type, ∀ s ∈ ((n d).storage type).tokens, Token.NoNul s := by
    intro d type s hs
    rw [← hn.tokens] at hs
    exact hclean (d, type) s hs
  exact callOn_noNul hop hbefore e type' s' hs'

/-- What is cut off comes back as it was. -/
theorem InOrder.shrink (hlf : ThreeQuarters lf) (h : InOrder hash m) (d : D) {f n' t v : IndexedToken}
    (hend : ∀ type, boundaries f n' t v type ≤ (m (d, type)).tokens.length) :
    ∃ m1, m.shrink hash d f n' t v = some m1 ∧ ∀ calls : List (String × TokenType),
      (∀ type, (calls.filter fun c => c.2 = type).map Prod.fst = (m (d, type)).tokens.drop (boundaries f n' t v type)) →
      ∃ toks m2, World.createTokens hash lf d (calls.map fun c => (c.1, .stored c.2)) m1 = some (.ok toks, m2) ∧
        (∀ a, (m2 a).tokens = (m a).tokens) ∧
        Forall₂ (fun c tok => IsTokenOf hash lf m d tok c.1 c.2) calls toks := by
  obtain ⟨n, hn⟩ := h.models
  have hend' : ∀ type, boundaries f n' t v type ≤ ((n d).storage type).size := fun type => hn.size d type ▸ hend type
  obtain ⟨m1, hrun⟩ := hn.exists_shrink lf d hend'
  obtain ⟨-, hn1⟩ := hn.shrink lf d hrun
  refine ⟨m1, hrun, fun calls hcalls => ?_⟩
  have hback : ((n d).shrink (boundaries f n' t v)).createTokens (calls.map fun c => .word c.2 c.1) = n d :=
    createTokens_shrink (n d) hend' fun type => by rw [hcalls, hn.tokens]
  have hnul : ∀ c ∈ calls, Token.NoNul c.1 := by
    intro c hc
    have hmem : c.1 ∈ (calls.filter fun c' => c'.2 = c.2).map Prod.fst :=
      mem_map.2 ⟨c, mem_filter.2 ⟨hc, decide_eq_true rfl⟩, rfl⟩
    rw [hcalls] at hmem
    exact h.noNul (d, c.2) _ (mem_of_mem_drop hmem)
  obtain ⟨toks, m2, hmake, hn2, htoks⟩ := hn1.createTokens (d := d) hlf hnul <| by
    intro type
    rw [update_self, hback, ← hn.tokens]
    exact h.room (d, type)
  rw [update_self, hback] at htoks
  rw [update_self, hback, update_idem, update_eq_self] at hn2
  refine ⟨toks, m2, hmake, ?_, htoks.imp fun c tok => ?_⟩
  · rintro ⟨e, type⟩
    rw [hn2.tokens, hn.tokens]
  · rintro ⟨i, rfl, hget⟩
    rw [← hn.tokens] at hget
    exact (isTokenOf_iff h).2 ⟨i, rfl, hget⟩

/-- **In every run on dictionaries with room the storages are lists without repetitions, indexed by the hash table; a token
made with one of the four types of storages has the string and type it was made from for as long as it is not cut off or
reset away, is made again from these and no others, and shares its bits with no token of another type and not with the
toplevel or the null token; strings cut off and made again in their order are the same tokens.  The toplevel token is
one, whatever the string.** -/
theorem dictionary_tokens (D : Type) [DecidableEq D] (hash : String → Nat) (hlf : ThreeQuarters lf) :
    ∃ m0 : World D, World.start D lf = some m0 ∧
      ∀ ops m, Machine.run (World.next hash lf) ops m0 = some m →
        Machine.Throughout (World.next hash lf) World.Small ops m0 → (∀ op ∈ ops, op.NoNul) →
      (∀ a, (m a).tokens.Nodup ∧ (values (m a).dictHash.slots).Perm (range (m a).tokens.length)) ∧
      (∀ d s type, NoNul s → ∃ tok m', m.createToken hash lf d s (.stored type) = some (.ok tok, m') ∧
        IsTokenOf hash lf m' d tok s type) ∧
      (∀ ops1 ops2 m1 d d' tok s type, ops = ops1 ++ ops2 → Machine.run (World.next hash lf) ops1 m0 = some m1 →
        IsTokenOf hash lf m1 d tok s type → ops2.foldlM (fun d op => op.follow type tok.index d) d = some d' →
        IsTokenOf hash lf m d' tok s type) ∧
      (∀ d tok tok' s s' type type', IsTokenOf hash lf m d tok s type → IsTokenOf hash lf m d tok' s' type' →
        (tok = tok' ↔ s = s' ∧ type = type')) ∧
      (∀ d d' tok tok' s s' type type', IsTokenOf hash lf m d tok s type → IsTokenOf hash lf m d' tok' s' type' →
        type ≠ type' → tok.typAndIdx ≠ tok'.typAndIdx) ∧
      (∀ d tok s type, IsTokenOf hash lf m d tok s type →
        tok.typAndIdx ≠ IndexedToken.top.typAndIdx ∧ tok.typAndIdx ≠ IndexedToken.null.typAndIdx) ∧
      (∀ d f n t v, (∀ type, boundaries f n t v type ≤ (m (d, type)).tokens.length) →
        ∃ m1, m.shrink hash d f n t v = some m1 ∧ ∀ calls : List (String × TokenType),
          (∀ type, (calls.filter fun c => c.2 = type).map Prod.fst = (m (d, type)).tokens.drop (boundaries f n t v type)) →
          ∃ toks m2, World.createTokens hash lf d (calls.map fun c => (c.1, .stored c.2)) m1 = some (.ok toks, m2) ∧
            (∀ a, (m2 a).tokens = (m a).tokens) ∧
            Forall₂ (fun c tok => IsTokenOf hash lf m d tok c.1 c.2) calls toks) ∧
      (∀ d s, m.createToken hash lf d s .top = some (.ok .top, m) ∧ m.label d .top = some topString ∧
        IndexedToken.top.type = .top) := by
  obtain ⟨m0, hstart, hinit, -⟩ := start_inOrder D hash hlf
  refine ⟨m0, hstart, fun ops m hrun hsmall hnul => ?_⟩
  obtain ⟨h, -⟩ := hinit.run hlf hsmall hnul hrun
  have hsmall' : m.Small := by
    have happ : Machine.Throughout (World.next hash lf) World.Small (ops ++ []) m0 := by rwa [append_nil]
    exact (Machine.throughout_append happ hrun).2
  refine ⟨?_, ?_, ?_, ?_, ?_, ?_, ?_, ?_⟩
  · intro a
    exact ⟨(h.good a).nodup, (h.good a).refines.values⟩
  · intro d s type hs
    exact h.createToken hlf hsmall' d hs type
  · rintro ops1 ops2 m1 d d' tok s type rfl hrun1 htok hfollow
    obtain ⟨hsmall1, hsmall2⟩ := Machine.throughout_append hsmall hrun1
    obtain ⟨h1, -⟩ := hinit.run hlf hsmall1 (fun op hop => hnul op (mem_append_left _ hop)) hrun1
    rw [Machine.run_append, hrun1] at hrun
    obtain ⟨-, hkeep⟩ := h1.run hlf hsmall2 (fun op hop => hnul op (mem_append_right _ hop)) hrun
    obtain ⟨i, rfl, hget⟩ := (isTokenOf_iff h1).1 htok
    rw [IndexedToken.ofIndex_index ((List.getElem?_eq_some_iff.1 hget).1.le.trans (h1.room _))] at hfollow
    exact (isTokenOf_iff h).2 ⟨i, rfl, hkeep hget hfollow⟩
  · intro d tok tok' s s' type type' htok htok'
    constructor
    · rintro rfl
      exact ⟨mem_unique htok.label htok'.label,
        TokenTypeId.stored.inj (htok.type_eq.symm.trans htok'.type_eq)⟩
    · rintro ⟨rfl, rfl⟩
      exact Except.ok.inj (mem_unique htok.find htok'.find)
  · intro d d' tok tok' s s' type type' htok htok' htype hval
    obtain rfl : tok = tok' := IndexedToken.ext hval
    exact htype (TokenTypeId.stored.inj (htok.type_eq.symm.trans htok'.type_eq))
  · intro d tok s type htok
    obtain ⟨i, rfl, hget⟩ := (isTokenOf_iff h).1 htok
    have hi : i ≤ maxNormalIndex := (List.getElem?_eq_some_iff.1 hget).1.le.trans (h.room _)
    exact ⟨fun hval => IndexedToken.ofIndex_ne_top hi (IndexedToken.ext hval),
      fun hval => IndexedToken.ofIndex_ne_null hi (IndexedToken.ext hval)⟩
  · intro d f n t v hend
    exact h.shrink hlf d hend
  · intro d s
    exact ⟨rfl, rfl, IndexedToken.top_type⟩

/-! ## Runs that go through -/

/-- There is room for another token of each type. -/
def Roomy (n : D → Dictionary) : Prop := ∀ d type, ((n d).storage type).tokens.length < maxNormalIndex

/-- A storage is cut only inside. -/
def Op.Cuts (n : D → Dictionary) : Op D → Prop
  | .shrink d f n' t v => ∀ type, boundaries f n' t v type ≤ ((n d).storage type).size
  | _ => True

omit [DecidableEq D] in
theorem World.Models.small (h : m.Models hash n) (hroomy : Roomy n) : m.Small := by
  rintro ⟨d, type⟩
  rw [h.tokens]
  exact hroomy d type

theorem World.Models.exists_next (hlf : ThreeQuarters lf) (h : m.Models hash n) (hroomy : Roomy n) {op : Op D} (hnul : op.NoNul)
    (hcuts : op.Cuts n) : ∃ m', m.next hash lf op = some m' := by
  cases op with
  | construct d => exact (h.construct hlf d).imp fun _ => And.left
  | createToken d s t =>
    cases t with
    | top => exact ⟨m, rfl⟩
    | stored type =>
      obtain ⟨m', hrun, -⟩ := h.word hlf (hnul d s type rfl) (hroomy d type).le
      exact ⟨m', map_eq_some_iff.2 ⟨_, hrun, rfl⟩⟩
  | findToken d s t =>
    cases t with
    | top => exact ⟨m, rfl⟩
    | stored type =>
      obtain ⟨hgood, -⟩ := h (d, type)
      refine ⟨m, ?_⟩
      rw [World.next, findToken_stored, World.findWord, Store.getIndexConst, hgood.findIndex]
      rfl
  | shrink d f n' t v => exact h.exists_shrink lf d hcuts
  | resetStorage d => exact (h.resetStorage hlf d).imp fun _ => And.left
  | swap d e => exact ⟨_, rfl⟩

/-- What the lists are to be like for a run to go through on the storages. -/
def Goes : List (Op D) → (D → Dictionary) → Prop
  | [], n => Roomy n
  | op :: ops, n => Roomy n ∧ op.Cuts n ∧ Goes ops (callOn n op)

theorem World.Models.exists_run (hlf : ThreeQuarters lf) : ∀ (ops : List (Op D)) {m : World D} {n : D → Dictionary},
    m.Models hash n → (∀ op ∈ ops, op.NoNul) → Goes ops n →
    ∃ m', Machine.run (World.next hash lf) ops m = some m' ∧ Machine.Throughout (World.next hash lf) World.Small ops m ∧
      m'.Models hash (ops.foldl callOn n)
  | [], m, _, h, _, hgoes => ⟨m, rfl, h.small hgoes, h⟩
  | op :: ops, m, n, h, hnul, ⟨hroomy, hcuts, hgoes⟩ => by
    have hop := hnul op mem_cons_self
    obtain ⟨m1, hm1⟩ := h.exists_next hlf hroomy hop hcuts
    have h1 := next_models hlf h (h.small hroomy) hop hm1
    obtain ⟨m', hrun, hthrough, h'⟩ := h1.exists_run hlf ops (fun op' hop' => hnul op' (mem_cons_of_mem _ hop')) hgoes
    refine ⟨m', by rw [Machine.run, hm1]; exact hrun, ⟨h.small hroomy, fun m2 hm2 => ?_⟩, h'⟩
    obtain rfl := mem_unique hm1 hm2
    exact hthrough

/-- The load factor without rounding. -/
def exactLoad : LoadFactor where
  scale p := 3 * p / 4
  stretch n := 4 * n / 3 + 1
  sparse count size := 8 * count ≤ 3 * size
  scale_lt p hp := by omega

theorem exactLoad_threeQuarters : ThreeQuarters exactLoad where
  scale_initial := by decide
  stretch_large := by decide
  sparse_large count hcount := by
    exact decide_eq_true (by omega)

/-- The toplevel token of any string has its own label. -/
theorem not_label_createToken : ¬ ∀ (ops : List (Op Unit)) (m0 m : World Unit), World.start Unit exactLoad = some m0 →
    Machine.run (World.next String.length exactLoad) ops m0 = some m →
    Machine.Throughout (World.next String.length exactLoad) World.Small ops m0 → (∀ op ∈ ops, op.NoNul) →
    ∀ d s t tok m', m.createToken String.length exactLoad d s t = some (.ok tok, m') → m'.label d tok = some s := by
  intro hall
  obtain ⟨m0, hstart, -, h0⟩ := start_inOrder Unit String.length exactLoad_threeQuarters
  have hnul : ∀ op ∈ [Op.construct ()], op.NoNul := by
    simp [Op.NoNul]
  have hgoes : Goes [.construct ()] fun _ : Unit => ⟨fun _ => .reset⟩ := by
    refine ⟨?_, trivial, ?_⟩ <;> rintro ⟨⟩ (_ | _) <;> decide
  obtain ⟨m, hrun, hthroughout, -⟩ := h0.exists_run exactLoad_threeQuarters _ hnul hgoes
  have hlabel := hall _ m0 m hstart hrun hthroughout hnul () "X" .top .top m rfl
  exact absurd (Option.some.inj hlabel) (by decide)

/-- A word in one dictionary of two. -/
def makeDog : List (Op Bool) := [.construct true, .construct false, .createToken true "dog" (.stored .native)]

/-- Another word; the dictionaries change places, and the other word is cut off again. -/
def swapAndShrink : List (Op Bool) :=
  [.createToken true "cat" (.stored .native), .swap true false,
    .shrink false (.ofIndex 3 .foreign) (.ofIndex 4 .native) (.ofIndex 0 .tag) (.ofIndex 0 .virtualTag)]

theorem goes_swapAndShrink : Goes (makeDog ++ swapAndShrink) fun _ : Bool => ⟨fun _ => .reset⟩ := by
  refine ⟨?_, trivial, ?_, trivial, ?_, trivial, ?_, trivial, ?_, trivial, ?_, ?_, ?_⟩
  case refine_7 => rintro (_ | _) <;> decide
  all_goals rintro (_ | _) (_ | _) <;> decide

/-- The dog outlives the exchange and the cut. -/
theorem dictionary_tokens_swapAndShrink : ∃ m0 m1 m tok, World.start Bool exactLoad = some m0 ∧
    Machine.run (World.next String.length exactLoad) makeDog m0 = some m1 ∧
    IsTokenOf String.length exactLoad m1 true tok "dog" .native ∧
    Machine.run (World.next String.length exactLoad) swapAndShrink m1 = some m ∧
    IsTokenOf String.length exactLoad m false tok "dog" .native := by
  obtain ⟨m0, hstart, hinit, h0⟩ := start_inOrder Bool String.length exactLoad_threeQuarters
  obtain ⟨_, hstart', hall⟩ := dictionary_tokens Bool String.length exactLoad_threeQuarters
  obtain rfl := mem_unique hstart hstart'
  have hnul : ∀ op ∈ makeDog ++ swapAndShrink, op.NoNul := by
    simp [makeDog, swapAndShrink, Op.NoNul, NoNul]
  have hnul1 : ∀ op ∈ makeDog, op.NoNul := fun op hop => hnul op (mem_append_left _ hop)
  have hgoes := goes_swapAndShrink
  obtain ⟨h1, h2, h3, h4, h5, h6, hgoes2⟩ := hgoes
  obtain ⟨m1, hrun1, hthrough1, hm1⟩ :=
    h0.exists_run exactLoad_threeQuarters makeDog hnul1 ⟨h1, h2, h3, h4, h5, h6, hgoes2.1⟩
  obtain ⟨m, hrun2, -⟩ :=
    hm1.exists_run exactLoad_threeQuarters swapAndShrink (fun op hop => hnul op (mem_append_right _ hop)) hgoes2
  obtain ⟨m', hrun, hthrough, -⟩ := h0.exists_run exactLoad_threeQuarters _ hnul goes_swapAndShrink
  have hboth := hrun
  rw [Machine.run_append, hrun1, bind_some] at hboth
  obtain rfl := mem_unique hrun2 hboth
  have htok : IsTokenOf String.length exactLoad m1 true (.ofIndex 3 .native) "dog" .native := by
    refine (isTokenOf_iff (hinit.run exactLoad_threeQuarters hthrough1 hnul1 hrun1).1).2 ⟨3, rfl, ?_⟩
    rw [hm1.tokens]
    decide
  obtain ⟨-, -, hkept, -⟩ := hall _ m hrun hthrough hnul
  exact ⟨m0, m1, m, _, hstart, hrun1, htok, hrun2, hkept makeDog swapAndShrink m1 true false _ _ _ rfl hrun1 htok (by decide)⟩

end Sbmt.Token
