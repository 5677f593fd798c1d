/-
This file models the selectors of libcss, the bloom filters of `select/bloom.h`, and how the
selectors of a stylesheet are hashed into chains.
-/

import Mathlib.Logic.Function.Basic
import Neosurf.Construction.Bytes

namespace Neosurf.Libcss

/-- This is `css_qname`. -/
structure Qname where
  ns : Option LwcString := none
  name : LwcString
  deriving DecidableEq, Inhabited, Repr

/-- This is `css_selector_type`. -/
inductive SelectorType where
  | element | «class» | id | pseudoClass | pseudoElement | attribute | attributeEqual
  | attributeDashmatch | attributeIncludes | attributePrefix | attributeSuffix
  | attributeSubstring
  deriving DecidableEq, Repr

/-- This is `css_selector_detail_value`. -/
inductive DetailValue where
  | string (value : LwcString)
  | nth (a b : Int)
  deriving DecidableEq, Repr

/-- This is `css_selector_detail`. The list of details replaces its bit `next`. -/
structure SelectorDetail where
  type : SelectorType
  qname : Qname
  value : DetailValue := .string []
  negate : Bool := false
  deriving DecidableEq, Repr

/-- These are the combinators between two selectors of a chain. -/
inductive Combinator where
  | ancestor | parent | sibling | genericSibling
  deriving DecidableEq, Repr

/-- The details of one selector in a chain. The first one always names an element. -/
structure Compound where
  qname : Qname
  details : List SelectorDetail := []
  deriving DecidableEq, Repr

/-- The origin of a stylesheet. -/
inductive Origin where
  | ua | user | author
  deriving DecidableEq, Repr

/-- This is `enum flag_value`. -/
inductive FlagValue where
  | none | inherit | initial | revert | unset
  deriving DecidableEq, Repr

/-- One property in the bytecode of a style. -/
structure Declaration (V : Type) where
  op : Nat
  important : Bool
  explicitDefault : FlagValue
  value : V
  deriving DecidableEq, Repr

/-- This is a `css_rule_selector` with the media queries of the rules around it. Without bytecode
its style is NULL. -/
structure Rule (M V : Type) where
  index : Nat
  style : Option (List (Declaration V))
  media : List M := []
  deriving DecidableEq, Repr

/-- This is a `css_selector` with the chain of its combining selectors. -/
structure Selector (M V : Type) where
  data : Compound
  chain : List (Combinator × Compound) := []
  specificity : Nat
  rule : Rule M V
  deriving DecidableEq, Repr

/-- This is the universal element name. -/
def universal : LwcString := str "*"

/-- This is the hash of the `insensitive` string of a name. -/
def hashName (name : LwcString) : UInt32 := lwcStringHashValue (folded name)

/-- This is a `css_bloom` array. -/
abbrev Bloom := Vector UInt32 4

/-- This is `css_bloom_init`. -/
def bloomInit : Bloom := Vector.replicate 4 0

/-- The index in the array is taken from these bits of a hash. -/
def bloomIndex (hash : UInt32) : Fin 4 := ⟨hash.toNat / 32 % 4, Nat.mod_lt _ (by decide)⟩

/-- This is `css_bloom_add_hash`. -/
def bloomAddHash (bloom : Bloom) (hash : UInt32) : Bloom :=
  bloom.set (bloomIndex hash) (bloom[bloomIndex hash] ||| 1 <<< (hash &&& 0x1f))

/-- The bit of a hash is set, which `css_bloom_has_hash` tests. -/
def HasHash (bloom : Bloom) (hash : UInt32) : Prop :=
  1 <<< (hash &&& 0x1f) &&& bloom[bloomIndex hash] = 1 <<< (hash &&& 0x1f)

/-- This is `css_bloom_in_bloom`. -/
def bloomInBloom (a b : Bloom) : Bool :=
  a[0] &&& b[0] == a[0] && a[1] &&& b[1] == a[1] && a[2] &&& b[2] == a[2] && a[3] &&& b[3] == a[3]

/-- This is `css_bloom_merge` of the first one into the second one. -/
def bloomMerge (a b : Bloom) : Bloom := Vector.zipWith (· ||| ·) b a

/-- This is a saturated bloom filter. -/
def bloomSaturated : Bloom := Vector.replicate 4 0xffffffff

section Names

/-- This is the first detail of a type that is not negated. -/
def firstName (type : SelectorType) (data : Compound) : Option LwcString :=
  (data.details.find? fun detail => detail.type == type && !detail.negate).map (·.qname.name)

/-- This is `_class_name`. -/
def className (data : Compound) : Option LwcString := firstName .class data

/-- This is `_id_name`. -/
def idName (data : Compound) : Option LwcString := firstName .id data

/-- This is `_chain_bloom_add_detail` on a detail that is not the element name. An element may be
named again inside a negation only, but its type is tested all the same. -/
def chainBloomAddDetail (detail : SelectorDetail) (bloom : Bloom) : Bloom :=
  match detail.type with
  | .element =>
      if detail.qname.name = universal then bloom else bloomAddHash bloom (hashName detail.qname.name)
  | .class | .id => bloomAddHash bloom (hashName detail.qname.name)
  | _ => bloom

/-- All details of a combining selector, its element name first. -/
def Compound.allDetails (data : Compound) : List SelectorDetail :=
  { type := .element, qname := data.qname } :: data.details

/-- The details of one combining selector go into the bloom filter. -/
def chainBloomAdd (data : Compound) (bloom : Bloom) : Bloom :=
  data.allDetails.foldl
    (fun bloom detail => if detail.negate then bloom else chainBloomAddDetail detail bloom) bloom

/-- This is `_chain_bloom_generate`: ancestors and parents count, siblings do not. -/
def chainBloomGenerate (chain : List (Combinator × Compound)) : Bloom :=
  chain.foldl
    (fun bloom link =>
      match link.1 with
      | .ancestor | .parent => chainBloomAdd link.2 bloom
      | .sibling | .genericSibling => bloom)
    bloomInit

end Names

variable {M V : Type}

/-- This is `hash_entry`. -/
structure HashEntry (M V : Type) where
  sel : Selector M V
  selChainBloom : Bloom
  deriving DecidableEq

/-- An entry with the bloom filter of its own selector. -/
def hashEntry (sel : Selector M V) : HashEntry M V :=
  { sel, selChainBloom := chainBloomGenerate sel.chain }

/-- The search in `_insert_into_chain` ends before this entry. -/
def comesAfter (entry : HashEntry M V) (selector : Selector M V) : Bool :=
  decide (entry.sel.specificity > selector.specificity) ||
    (entry.sel.specificity == selector.specificity &&
      decide (entry.sel.rule.index > selector.rule.index))

/-- This is `_insert_into_chain`. -/
def insertIntoChain (selector : Selector M V) : List (HashEntry M V) → List (HashEntry M V)
  | [] => [hashEntry selector]
  | entry :: rest =>
      if comesAfter entry selector then hashEntry selector :: entry :: rest
      else entry :: insertIntoChain selector rest

/-- The search in `_remove_from_chain` behind the head. -/
def removeBehind [DecidableEq (Selector M V)] (selector : Selector M V) :
    List (HashEntry M V) → Option (List (HashEntry M V))
  | [] => none
  | entry :: rest =>
      if entry.sel = selector then some rest
      else (removeBehind selector rest).map (entry :: ·)

/-- This is `_remove_from_chain`, with `none` for its error. A removed head takes over the selector
of the next entry and keeps its own bloom filter. -/
def removeFromChain [DecidableEq (Selector M V)] (selector : Selector M V) :
    List (HashEntry M V) → Option (List (HashEntry M V))
  | [] => none
  | head :: rest =>
      if head.sel = selector then
        match rest with
        | [] => some []
        | next :: rest => some ({ sel := next.sel, selChainBloom := head.selChainBloom } :: rest)
      else (removeBehind selector rest).map (head :: ·)

/-- Each hash has so many slots. -/
def DEFAULT_SLOTS : Nat := 64

/-- The slots of one hash. -/
abbrev Slots (M V : Type) := Fin DEFAULT_SLOTS → List (HashEntry M V)

/-- This is `css_selector_hash` without its memory size. -/
structure SelectorHash (M V : Type) where
  elements : Slots M V
  classes : Slots M V
  ids : Slots M V
  universal : List (HashEntry M V)

/-- This is `css__selector_hash_create`. -/
def selectorHashCreate : SelectorHash M V :=
  { elements := fun _ => [], classes := fun _ => [], ids := fun _ => [], universal := [] }

/-- The slot of a name. -/
def slotOf (name : LwcString) : Fin DEFAULT_SLOTS :=
  ⟨(hashName name).toNat % DEFAULT_SLOTS, Nat.mod_lt _ (by decide)⟩

/-- The hash that a selector belongs to, with its slot there. -/
inductive HashPlace where
  | id (slot : Fin DEFAULT_SLOTS)
  | class (slot : Fin DEFAULT_SLOTS)
  | element (slot : Fin DEFAULT_SLOTS)
  | universal
  deriving DecidableEq, Repr

/-- An id decides before a class, and a class before the element name. -/
def hashPlace (data : Compound) : HashPlace :=
  match idName data with
  | some name => .id (slotOf name)
  | none =>
      match className data with
      | some name => .class (slotOf name)
      | none =>
          if data.qname.name ≠ universal then .element (slotOf data.qname.name) else .universal

/-- The chain at a place. -/
def SelectorHash.chain (hash : SelectorHash M V) : HashPlace → List (HashEntry M V)
  | .id slot => hash.ids slot
  | .class slot => hash.classes slot
  | .element slot => hash.elements slot
  | .universal => hash.universal

/-- The chain at a place is replaced. -/
def SelectorHash.setChain (hash : SelectorHash M V) (place : HashPlace)
    (chain : List (HashEntry M V)) : SelectorHash M V :=
  match place with
  | .id slot => { hash with ids := Function.update hash.ids slot chain }
  | .class slot => { hash with classes := Function.update hash.classes slot chain }
  | .element slot => { hash with elements := Function.update hash.elements slot chain }
  | .universal => { hash with universal := chain }

/-- This is `css__selector_hash_insert`. -/
def selectorHashInsert (hash : SelectorHash M V) (selector : Selector M V) : SelectorHash M V :=
  let place := hashPlace selector.data
  hash.setChain place (insertIntoChain selector (hash.chain place))

/-- This is `css__selector_hash_remove`, with `none` for its error. -/
def selectorHashRemove [DecidableEq (Selector M V)] (hash : SelectorHash M V)
    (selector : Selector M V) : Option (SelectorHash M V) :=
  let place := hashPlace selector.data
  (removeFromChain selector (hash.chain place)).map (hash.setChain place)

end Neosurf.Libcss
