/-
This file models how libcss selects the style of a node: the chains of a stylesheet are merged, the
imported sheets come before the sheet that imports them, and declarations replace each other.
-/

import Neosurf.Construction.Libcss.Match

namespace Neosurf.Libcss

variable {Node M V : Type}

/-- This is `css_hash_selection_requirments` for one node. -/
structure Requirements (M : Type) where
  qname : Qname
  nodeBloom : Bloom
  listMatch : M → Bool

/-- This is `mq_rule_good_for_media`. -/
def ruleGoodForMedia (req : Requirements M) (rule : Rule M V) : Bool := rule.media.all req.listMatch

/-- This is the macro `RULE_HAS_BYTECODE`. -/
def ruleHasBytecode (rule : Rule M V) : Bool := rule.style.isSome

/-- This is `_chain_good_for_element_name`. -/
def chainGoodForElementName (req : Requirements M) (selector : Selector M V) : Bool :=
  selector.data.qname.name == universal || caselessEqual selector.data.qname.name req.qname.name

/-- The tests that all chains make. -/
def entryGood (req : Requirements M) (entry : HashEntry M V) : Bool :=
  ruleHasBytecode entry.sel.rule && bloomInBloom entry.selChainBloom req.nodeBloom &&
    ruleGoodForMedia req entry.sel.rule

/-- The test in the chain of an element name. -/
def elementGood (req : Requirements M) (entry : HashEntry M V) : Bool :=
  caselessEqual req.qname.name entry.sel.data.qname.name && entryGood req entry

/-- The test in the chain of a class or an id. -/
def namedGood (req : Requirements M) (name : Compound → Option LwcString) (wanted : LwcString)
    (entry : HashEntry M V) : Bool :=
  (name entry.sel.data).any (caselessEqual wanted) && chainGoodForElementName req entry.sel &&
    entryGood req entry

/-- The source of a selector in `css_select_rule_source`. -/
inductive RuleSource where
  | element
  | class (index : Nat)
  | id
  | universal
  deriving DecidableEq, Repr

/-- The chains from the next applicable entry on. An entry is found when its chain is not empty. -/
structure Cursors (M V : Type) where
  node : List (HashEntry M V)
  id : List (HashEntry M V)
  classes : List (List (HashEntry M V))
  univ : List (HashEntry M V)

/-- The searches of `select/hash.c` all skip the entries that do not apply. -/
def skipTo (good : HashEntry M V → Bool) (chain : List (HashEntry M V)) : List (HashEntry M V) :=
  chain.dropWhile fun entry => !good entry

/-- These are `css__selector_hash_find`, `css__selector_hash_find_by_class`,
`css__selector_hash_find_by_id` and `css__selector_hash_find_universal`. -/
def findCursors (hash : SelectorHash M V) (req : Requirements M) (classes : List LwcString)
    (id : Option LwcString) : Cursors M V where
  node := skipTo (elementGood req) (hash.elements (slotOf req.qname.name))
  classes := classes.map fun name =>
    skipTo (namedGood req className name) (hash.classes (slotOf name))
  id := match id with
    | some name => skipTo (namedGood req idName name) (hash.ids (slotOf name))
    | none => []
  univ := skipTo (entryGood req) hash.universal

/-- The selector of a cursor. -/
def cursorHead (chain : List (HashEntry M V)) : Option (Selector M V) := chain.head?.map (·.sel)

/-- This is `_selectors_pending`. -/
def selectorsPending (cursors : Cursors M V) : Bool :=
  (cursorHead cursors.node).isSome || (cursorHead cursors.id).isSome ||
    (cursorHead cursors.univ).isSome || cursors.classes.any fun chain => (cursorHead chain).isSome

/-- This is `_selector_less_specific`. -/
def selectorLessSpecific (ref cand : Option (Selector M V)) : Bool :=
  match ref, cand with
  | _, none => false
  | none, some _ => true
  | some ref, some cand =>
      if cand.specificity < ref.specificity then true
      else if ref.specificity < cand.specificity then false
      else decide (cand.rule.index < ref.rule.index)

/-- A candidate replaces the one before when it is less specific. -/
def consider (best : Option (Selector M V) × RuleSource)
    (cand : Option (Selector M V) × RuleSource) : Option (Selector M V) × RuleSource :=
  if selectorLessSpecific best.1 cand.1 then cand else best

/-- The heads of all chains in the order of `_selector_next`. -/
def candidates (cursors : Cursors M V) : List (Option (Selector M V) × RuleSource) :=
  [(cursorHead cursors.node, .element), (cursorHead cursors.id, .id),
    (cursorHead cursors.univ, .universal)] ++
    cursors.classes.mapIdx fun i chain => (cursorHead chain, .class i)

/-- This is `_selector_next`. -/
def selectorNext (cursors : Cursors M V) : Option (Selector M V) × RuleSource :=
  (candidates cursors).foldl consider (none, .element)

/-- The iterators of `select/hash.c` go on from the next entry. -/
def advance (req : Requirements M) (classes : List LwcString) (id : Option LwcString)
    (cursors : Cursors M V) : RuleSource → Cursors M V
  | .element => { cursors with node := skipTo (elementGood req) cursors.node.tail }
  | .id => { cursors with id := skipTo (namedGood req idName (id.getD [])) cursors.id.tail }
  | .universal => { cursors with univ := skipTo (entryGood req) cursors.univ.tail }
  | .class i =>
      { cursors with
        classes := cursors.classes.modify i fun chain =>
          skipTo (namedGood req className (classes.getD i [])) chain.tail }

/-- The loop of `match_selectors_in_sheet` over a state. Every round takes an entry from a chain. -/
def matchLoop {S : Type} (req : Requirements M) (classes : List LwcString) (id : Option LwcString)
    (visit : Selector M V → S → S) : Nat → Cursors M V → S → S
  | 0, _, state => state
  | rounds + 1, cursors, state =>
      if selectorsPending cursors then
        match selectorNext cursors with
        | (some selector, source) =>
            matchLoop req classes id visit rounds (advance req classes id cursors source)
              (visit selector state)
        | (none, _) => state
      else state

/-- The entries that are left. -/
def Cursors.size (cursors : Cursors M V) : Nat :=
  cursors.node.length + cursors.id.length + cursors.univ.length +
    (cursors.classes.map List.length).sum

/-- The rank of an origin, as the enumeration orders it. -/
def Origin.rank : Origin → Nat
  | .ua => 0
  | .user => 1
  | .author => 2

/-- This is `prop_state` once it is set, with the value that the computed style holds. -/
structure PropState (V : Type) where
  specificity : Nat
  origin : Origin
  important : Bool
  explicitDefault : FlagValue
  value : V
  deriving DecidableEq, Repr

/-- This is the test of `css__outranks_existing`. -/
def outranksExisting (existing : Option (PropState V)) (origin : Origin) (specificity : Nat)
    (important : Bool) : Bool :=
  match existing with
  | none => true
  | some existing =>
      if existing.origin.rank < origin.rank then
        !existing.important || existing.origin != .user
      else if existing.origin = origin then
        if existing.origin = .ua then decide (existing.specificity ≤ specificity)
        else if existing.important = false ∧ important = true then true
        else if existing.important = true ∧ important = false then false
        else decide (existing.specificity ≤ specificity)
      else origin == .user && important

/-- This is `css_select_state` for one node, as far as selectors change it. A property is set where
it has a state. -/
structure SelectState (V : Type) where
  props : Nat → PseudoElement → Option (PropState V) := fun _ _ => none
  styles : PseudoElement → Bool := fun _ => false
  currentOrigin : Origin := .ua
  currentSpecificity : Nat := 0
  currentPseudo : PseudoElement := .none
  rejectCache : List RejectItem := []

/-- One property of a style, with the update in `css__outranks_existing`. -/
def cascadeDeclaration (state : SelectState V) (declaration : Declaration V) : SelectState V :=
  let existing := state.props declaration.op state.currentPseudo
  if outranksExisting existing state.currentOrigin state.currentSpecificity declaration.important then
    { state with
      props := Function.update state.props declaration.op
        (Function.update (state.props declaration.op) state.currentPseudo
          (some
            { specificity := state.currentSpecificity
              origin := state.currentOrigin
              important := declaration.important
              explicitDefault := declaration.explicitDefault
              value := declaration.value })) }
  else state

/-- This is `cascade_style`. -/
def cascadeStyle (style : List (Declaration V)) (state : SelectState V) : SelectState V :=
  style.foldl cascadeDeclaration state

/-- This is `match_selector_chain`. -/
def matchSelectorAndCascade (handler : SelectHandler Node) (node : Node) (selector : Selector M V)
    (state : SelectState V) : SelectState V :=
  let (matched, rejectCache) := matchSelectorChain handler node selector state.rejectCache
  let state := { state with rejectCache }
  if matched then
    let pseudo := pseudoOf selector.data
    cascadeStyle (selector.rule.style.getD [])
      { state with
        currentSpecificity := selector.specificity
        styles := Function.update state.styles pseudo true
        currentPseudo := pseudo }
  else state

/-- The requirements that `match_selectors_in_sheet` sets up. -/
def requirements (handler : SelectHandler Node) (listMatch : M → Bool) (nodeBloom : Bloom)
    (node : Node) : Requirements M :=
  { qname := handler.nodeName node, nodeBloom, listMatch }

/-- This is `match_selectors_in_sheet`. -/
def matchSelectorsInSheet (handler : SelectHandler Node) (listMatch : M → Bool) (nodeBloom : Bloom)
    (node : Node) (hash : SelectorHash M V) (state : SelectState V) : SelectState V :=
  let req := requirements handler listMatch nodeBloom node
  let classes := handler.nodeClasses node
  let id := handler.nodeId node
  let cursors := findCursors hash req classes id
  matchLoop req classes id (matchSelectorAndCascade handler node) cursors.size cursors state

/-- The bloom filters in the node data of a document. -/
abbrev NodeBlooms (Node : Type) := Node → Option Bloom

section Blooms

variable [DecidableEq Node] (handler : SelectHandler Node)

/-- This is `css__get_parent_bloom`. A parent without a bloom filter is given a saturated one. -/
def getParentBloom (blooms : NodeBlooms Node) (node : Node) : Bloom × NodeBlooms Node :=
  match handler.parentNode node with
  | none => (bloomInit, blooms)
  | some parent =>
      match blooms parent with
      | some bloom => (bloom, blooms)
      | none => (bloomSaturated, Function.update blooms parent (some bloomSaturated))

/-- This is `css__create_node_bloom`. -/
def createNodeBloom (parentBloom : Bloom) (node : Node) : Bloom :=
  let bloom := bloomAddHash bloomInit (hashName (handler.nodeName node).name)
  let bloom := match handler.nodeId node with
    | some id => bloomAddHash bloom (hashName id)
    | none => bloom
  bloomMerge parentBloom
    ((handler.nodeClasses node).foldl (fun bloom name => bloomAddHash bloom (hashName name)) bloom)

/-- This is `css_select_style` up to the unset properties, for a node without hints, without an
inline style and without another node whose style it shares. The sheets apply to the medium, and
imported ones come before the sheet that imports them. -/
def selectStyle (listMatch : M → Bool) (sheets : List (Origin × SelectorHash M V))
    (blooms : NodeBlooms Node) (node : Node) : SelectState V × NodeBlooms Node :=
  let (parentBloom, blooms) := getParentBloom handler blooms node
  (sheets.foldl
      (fun state sheet =>
        matchSelectorsInSheet handler listMatch parentBloom node sheet.2
          { state with currentOrigin := sheet.1 })
      {},
    Function.update blooms node (some (createNodeBloom handler parentBloom node)))

/-- These are the calls that change node data: a style is selected, or the data of a node is dropped
by `css_libcss_node_data_handler`. -/
inductive NodeCall (Node : Type) where
  | select (node : Node)
  | drop (node : Node)

/-- One call changes the bloom filters. -/
def NodeCall.run (blooms : NodeBlooms Node) : NodeCall Node → NodeBlooms Node
  | .select node => (selectStyle (M := Unit) (V := Unit) handler (fun _ => true) [] blooms node).2
  | .drop node => Function.update blooms node none

end Blooms

end Neosurf.Libcss
