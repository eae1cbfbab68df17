import Sbmt.Token.Packed
import Sbmt.Token.Storage

/-!
# `dictionary<in_memory_token_storage>` (`token/impl/indexed_token.ipp:97-336`, `token/indexed_token.hpp:141-262`)

| here | there |
| --- | --- |
| `World` | the storages of all dictionaries: one for each dictionary and type |
| `foreignWord`, `nativeWord`, `tag`, `virtualTag` | the members of these names, one template in four copies |
| `findForeignWord`, … | `find_foreign_word`, … |
| `createToken`, `findToken`, `label`, `shrink`, `resetStorage`, `swap` | the members |
| `initSpecialTokens` | `init_special_tokens`, with the strings of `src/token.cpp:74-102`; the members that keep the six tokens are left out |
| `Op`, `next` | the calls, on any of the dictionaries |

`World.Models` compares with `Grammar.Dictionary`, where a storage is the list of its strings: `next_models`.
-/

namespace Sbmt.Token

open Sbmt.Lib Sbmt.Hash Sbmt.Grammar

/-- The text of `max_tokens_exceeded`. -/
def tooMany : TokenType → String
  | .foreign => "too many foreign tokens"
  | .native => "too many native tokens"
  | .tag => "too many tag tokens"
  | .virtualTag => "too many virtual tag tokens"

/-- `top_token_text` -/
def topString : String := "TOP"

/-- The token of an index, if the type has room for it. -/
def indexed (type : TokenType) (idx : Nat) : Except String IndexedToken :=
  if idx ≥ maxNormalIndex then .error (tooMany type) else .ok (.ofIndex idx type)

abbrev World (D : Type) := Store (D × TokenType)

/-- The dictionaries' storages before anything is in them. -/
def World.start (D : Type) (lf : LoadFactor) : Option (World D) :=
  (OaHashtable.create lf initialSize).map fun tbl a => ⟨[], tbl, a⟩

section

variable {D : Type} (hash : String → Nat) (lf : LoadFactor)

def World.findWord (type : TokenType) (m : World D) (d : D) (s : String) : Option (Except String IndexedToken) :=
  (m.getIndexConst hash (d, type) s).map fun r => r.bind (indexed type)

variable (m : World D) (d : D) (s : String)

def World.findForeignWord := m.findWord hash .foreign d s

def World.findNativeWord := m.findWord hash .native d s

def World.findTag := m.findWord hash .tag d s

def World.findVirtualTag := m.findWord hash .virtualTag d s

def World.findToken : TokenTypeId → Option (Except String IndexedToken)
  | .top => some (.ok .top)
  | .stored .foreign => m.findForeignWord hash d s
  | .stored .native => m.findNativeWord hash d s
  | .stored .tag => m.findTag hash d s
  | .stored .virtualTag => m.findVirtualTag hash d s

def World.label (tok : IndexedToken) : Option String :=
  match tok.type with
  | .top => some topString
  | .stored type => m.getToken (d, type) tok.index

variable [DecidableEq D]

def World.word (type : TokenType) (m : World D) (d : D) (s : String) : Option (Except String IndexedToken × World D) :=
  (m.getIndex hash lf (d, type) s).map fun r => (indexed type r.1, r.2)

variable (m : World D) (d : D) (s : String)

def World.foreignWord := m.word hash lf .foreign d s

def World.nativeWord := m.word hash lf .native d s

def World.tag := m.word hash lf .tag d s

def World.virtualTag := m.word hash lf .virtualTag d s

def World.createToken : TokenTypeId → Option (Except String IndexedToken × World D)
  | .top => some (.ok .top, m)
  | .stored .foreign => m.foreignWord hash lf d s
  | .stored .native => m.nativeWord hash lf d s
  | .stored .tag => m.tag hash lf d s
  | .stored .virtualTag => m.virtualTag hash lf d s

/-- One call of `create_token` after the other, until one throws. -/
def World.createTokens (d : D) : List (String × TokenTypeId) → World D → Option (Except String (List IndexedToken) × World D)
  | [], m => some (.ok [], m)
  | (s, t) :: calls, m =>
    (m.createToken hash lf d s t).bind fun r =>
      match r.1 with
      | .error e => some (.error e, r.2)
      | .ok tok => (World.createTokens d calls r.2).map fun r => (r.1.map (tok :: ·), r.2)

def specialTokens : List (String × TokenType) :=
  [("<foreign-sentence>", .foreign), ("</foreign-sentence>", .foreign), ("<unknown-word/>", .foreign),
    ("<unknown-word/>", .native), ("<epsilon/>", .native), ("<separator/>", .native)]

def World.initSpecialTokens : Option (Except String (List IndexedToken) × World D) :=
  World.createTokens hash lf d (specialTokens.map fun c => (c.1, .stored c.2)) m

/-- `dictionary()` -/
def World.construct : Option (World D) :=
  (OaHashtable.create lf initialSize).bind fun tbl =>
    (World.initSpecialTokens hash lf (fun a => if a.1 = d then ⟨[], tbl, a⟩ else m a) d).map Prod.snd

def World.resetStorage : Option (World D) :=
  (World.initSpecialTokens hash lf ((((m.reset (d, .foreign)).reset (d, .native)).reset (d, .tag)).reset (d, .virtualTag)) d).map
    Prod.snd

def World.shrink (f n t v : IndexedToken) : Option (World D) :=
  (Store.shrink hash m (d, .foreign) f.index).bind fun m =>
    (Store.shrink hash m (d, .native) n.index).bind fun m =>
      (Store.shrink hash m (d, .tag) t.index).bind fun m =>
        Store.shrink hash m (d, .virtualTag) v.index

def World.swap (d e : D) : World D :=
  (((Store.swap m (d, .foreign) (e, .foreign)).swap (d, .native) (e, .native)).swap (d, .tag) (e, .tag)).swap
    (d, .virtualTag) (e, .virtualTag)

inductive Op (D : Type) where
  | construct (d : D)
  | createToken (d : D) (s : String) (t : TokenTypeId)
  | findToken (d : D) (s : String) (t : TokenTypeId)
  | shrink (d : D) (f n t v : IndexedToken)
  | resetStorage (d : D)
  | swap (d e : D)

/-- The world after a call, also where it throws. -/
def World.next : Op D → Option (World D)
  | .construct d => m.construct hash lf d
  | .createToken d s t => (m.createToken hash lf d s t).map Prod.snd
  | .findToken d s t => (m.findToken hash d s t).map fun _ => m
  | .shrink d f n t v => m.shrink hash d f n t v
  | .resetStorage d => m.resetStorage hash lf d
  | .swap d e => some (m.swap d e)

end

end Sbmt.Token
