/-
This file models how libcss matches the selector chain of a rule against a node, with the handler
functions of the client and the reject cache, and what the handlers of `css/select.c` find in a
document of libdom.
-/

import Neosurf.Construction.Libcss.Selectors
import Neosurf.ToMathlib.Walks

namespace Neosurf.Libcss

/-- This is `css_select_handler` with the functions that matching calls. The handlers of element
trees only run out of memory, which is left out. The trees are finite, so a walk over them has a
bound that no C variable holds. -/
structure SelectHandler (Node : Type) where
  walkBound : Node → Nat
  nodeName : Node → Qname
  nodeClasses : Node → List LwcString
  nodeId : Node → Option LwcString
  namedAncestorNode : Node → Qname → Option Node
  namedParentNode : Node → Qname → Option Node
  namedSiblingNode : Node → Qname → Option Node
  namedGenericSiblingNode : Node → Qname → Option Node
  parentNode : Node → Option Node
  siblingNode : Node → Option Node
  nodeHasName : Node → Qname → Bool
  nodeHasClass : Node → LwcString → Bool
  nodeHasId : Node → LwcString → Bool
  nodeHasAttribute : Node → Qname → Bool
  nodeHasAttributeEqual : Node → Qname → LwcString → Bool
  nodeHasAttributeDashmatch : Node → Qname → LwcString → Bool
  nodeHasAttributeIncludes : Node → Qname → LwcString → Bool
  nodeHasAttributePrefix : Node → Qname → LwcString → Bool
  nodeHasAttributeSuffix : Node → Qname → LwcString → Bool
  nodeHasAttributeSubstring : Node → Qname → LwcString → Bool
  nodeIsRoot : Node → Bool
  nodeCountSiblings : Node → Bool → Bool → Int
  nodeIsEmpty : Node → Bool
  nodeIsLink : Node → Bool
  nodeIsVisited : Node → Bool
  nodeIsHover : Node → Bool
  nodeIsActive : Node → Bool
  nodeIsFocus : Node → Bool
  nodeIsEnabled : Node → Bool
  nodeIsDisabled : Node → Bool
  nodeIsChecked : Node → Bool
  nodeIsTarget : Node → Bool
  nodeIsLang : Node → LwcString → Bool
  deriving Inhabited

/-- This is `css_pseudo_element`. -/
inductive PseudoElement where
  | none | firstLine | firstLetter | before | after
  deriving DecidableEq, Repr

/-- This is `match_nth`. The remainder of C is zero where this one is. -/
def matchNth (a b count : Int) : Bool :=
  if a = 0 then count == b
  else
    let delta := count - b
    if (decide (delta > 0) == decide (a > 0)) || delta == 0 then delta % a == 0 else false

variable {Node : Type} (handler : SelectHandler Node)

/-- The coefficients of an `nth` value. -/
def nthOf : DetailValue → Int × Int
  | .nth a b => (a, b)
  | .string _ => (0, 0)

/-- The string of another value. -/
def stringOf : DetailValue → LwcString
  | .string value => value
  | .nth _ _ => []

/-- One of the `nth` tests counts the siblings on one side, with the node itself. -/
def nodeIsNth (node : Node) (sameName after : Bool) (value : DetailValue) : Bool :=
  matchNth (nthOf value).1 (nthOf value).2 (handler.nodeCountSiblings node sameName after + 1)

/-- No sibling stands on this side. -/
def nodeIsOuter (node : Node) (sameName after : Bool) : Bool :=
  handler.nodeCountSiblings node sameName after == 0

/-- The tests of the pseudo classes. A root passes none of those that count siblings. -/
def matchPseudoClass (node : Node) (name : LwcString) (value : DetailValue) : Bool :=
  let isRoot := handler.nodeIsRoot node
  if isRoot = false ∧ name = str "first-child" then nodeIsOuter handler node false false
  else if isRoot = false ∧ name = str "nth-child" then nodeIsNth handler node false false value
  else if isRoot = false ∧ name = str "nth-last-child" then nodeIsNth handler node false true value
  else if isRoot = false ∧ name = str "nth-of-type" then nodeIsNth handler node true false value
  else if isRoot = false ∧ name = str "nth-last-of-type" then nodeIsNth handler node true true value
  else if isRoot = false ∧ name = str "last-child" then nodeIsOuter handler node false true
  else if isRoot = false ∧ name = str "first-of-type" then nodeIsOuter handler node true false
  else if isRoot = false ∧ name = str "last-of-type" then nodeIsOuter handler node true true
  else if isRoot = false ∧ name = str "only-child" then
    nodeIsOuter handler node false false && nodeIsOuter handler node false true
  else if isRoot = false ∧ name = str "only-of-type" then
    nodeIsOuter handler node true false && nodeIsOuter handler node true true
  else if name = str "root" then isRoot
  else if name = str "empty" then handler.nodeIsEmpty node
  else if name = str "link" then handler.nodeIsLink node
  else if name = str "visited" then handler.nodeIsVisited node
  else if name = str "hover" then handler.nodeIsHover node
  else if name = str "active" then handler.nodeIsActive node
  else if name = str "focus" then handler.nodeIsFocus node
  else if name = str "target" then handler.nodeIsTarget node
  else if name = str "lang" then handler.nodeIsLang node (stringOf value)
  else if name = str "enabled" then handler.nodeIsEnabled node
  else if name = str "disabled" then handler.nodeIsDisabled node
  else if name = str "checked" then handler.nodeIsChecked node
  else false

/-- The name of a pseudo element. -/
def pseudoElementOf (name : LwcString) : Option PseudoElement :=
  if name = str "first-line" then some .firstLine
  else if name = str "first-letter" then some .firstLetter
  else if name = str "before" then some .before
  else if name = str "after" then some .after
  else none

/-- This is the test of `match_detail` before the answer is inverted. An element is tested inside a
negation only. -/
def matchPlainDetail (node : Node) (detail : SelectorDetail) : Bool :=
  match detail.type with
  | .element => if detail.negate then handler.nodeHasName node detail.qname else true
  | .class => handler.nodeHasClass node detail.qname.name
  | .id => handler.nodeHasId node detail.qname.name
  | .pseudoClass => matchPseudoClass handler node detail.qname.name detail.value
  | .pseudoElement => (pseudoElementOf detail.qname.name).isSome
  | .attribute => handler.nodeHasAttribute node detail.qname
  | .attributeEqual => handler.nodeHasAttributeEqual node detail.qname (stringOf detail.value)
  | .attributeDashmatch => handler.nodeHasAttributeDashmatch node detail.qname (stringOf detail.value)
  | .attributeIncludes => handler.nodeHasAttributeIncludes node detail.qname (stringOf detail.value)
  | .attributePrefix => handler.nodeHasAttributePrefix node detail.qname (stringOf detail.value)
  | .attributeSuffix => handler.nodeHasAttributeSuffix node detail.qname (stringOf detail.value)
  | .attributeSubstring => handler.nodeHasAttributeSubstring node detail.qname (stringOf detail.value)

/-- This is `match_detail`. -/
def matchDetail (node : Node) (detail : SelectorDetail) : Bool :=
  matchPlainDetail handler node detail != detail.negate

/-- This is what `match_details` answers in `match`: the element name is not tested. -/
def matchDetails (node : Node) (data : Compound) : Bool := data.details.all (matchDetail handler node)

/-- This is what `match_details` answers in `pseudo_element`: the last name of a pseudo element. -/
def pseudoOf (data : Compound) : PseudoElement :=
  data.details.foldl
    (fun pseudo detail =>
      if detail.type = .pseudoElement then (pseudoElementOf detail.qname.name).getD pseudo
      else pseudo)
    .none

/-- The loop that both kinds of combinators share. Only the adjacent node counts for a parent or
a sibling. -/
def searchNode (next : Node → Option Node) (adjacent : Bool) (data : Compound) :
    Nat → Node → Option Node
  | 0, _ => none
  | rounds + 1, node =>
      match next node with
      | none => none
      | some candidate =>
          if matchDetails handler candidate data then some candidate
          else if adjacent then none
          else searchNode next adjacent data rounds candidate

/-- The next node must be the adjacent one. -/
def Combinator.adjacent : Combinator → Bool
  | .parent | .sibling => true
  | .ancestor | .genericSibling => false

/-- The candidates of a combinator with an element name. -/
def namedCandidate (type : Combinator) (name : Qname) (node : Node) : Option Node :=
  match type with
  | .ancestor => handler.namedAncestorNode node name
  | .parent => handler.namedParentNode node name
  | .sibling => handler.namedSiblingNode node name
  | .genericSibling => handler.namedGenericSiblingNode node name

/-- This is `match_named_combinator`. -/
def matchNamedCombinator (type : Combinator) (selector : Compound) (node : Node) :
    Option Node :=
  searchNode handler (namedCandidate handler type selector.qname) type.adjacent selector
    (handler.walkBound node) node

/-- The candidates of a combinator with the universal name. -/
def universalCandidate (type : Combinator) (node : Node) : Option Node :=
  match type with
  | .ancestor | .parent => handler.parentNode node
  | .sibling | .genericSibling => handler.siblingNode node

/-- This is `reject_item`. -/
structure RejectItem where
  type : SelectorType
  value : LwcString
  deriving DecidableEq, Repr

/-- The reject cache has so many items. -/
def REJECT_CACHE_SIZE : Nat := 128

/-- The combinator leads to ancestors. -/
def Combinator.climbs : Combinator → Bool
  | .ancestor | .parent => true
  | .sibling | .genericSibling => false

/-- The second detail of a selector, when it is a class or an id. -/
def cachedItem (selector : Compound) : Option RejectItem :=
  match selector.details with
  | detail :: _ =>
      if detail.type = .class ∨ detail.type = .id then
        some { type := detail.type, value := detail.qname.name }
      else none
  | [] => none

/-- `match_universal_combinator` consults the reject cache first. -/
def rejectedByCache (cache : List RejectItem) (type : Combinator) (mayOptimise : Bool)
    (selector : Compound) : Bool :=
  mayOptimise && type.climbs &&
    match cachedItem selector with
    | some item => cache.contains item
    | none => false

/-- This is the search in `match_universal_combinator`. -/
def searchUniversal (type : Combinator) (selector : Compound) (node : Node) : Option Node :=
  searchNode handler (universalCandidate handler type) type.adjacent selector
    (handler.walkBound node) node

/-- This is `update_reject_cache`: the only other detail is a class or an id. -/
def updateRejectCache (cache : List RejectItem) (comb : Combinator) (selector : Compound) :
    List RejectItem :=
  if REJECT_CACHE_SIZE ≤ cache.length ∨ comb ≠ .ancestor ∨ selector.details.length ≠ 1 then cache
  else
    match cachedItem selector with
    | some item => item :: cache
    | none => cache

/-- These are the combinators in `match_selector_chain`. Only the first one of the chain adds to
the reject cache. -/
def matchChain :
    List (Combinator × Compound) → Bool → Bool → List RejectItem → Node → Bool × List RejectItem
  | [], _, _, cache, _ => (true, cache)
  | (comb, selector) :: chain, mayOptimise, first, cache, node =>
      let mayOptimise := mayOptimise && comb.climbs
      if selector.qname.name ≠ universal then
        match matchNamedCombinator handler comb selector node with
        | none => (false, cache)
        | some next => matchChain chain mayOptimise false cache next
      else if rejectedByCache cache comb mayOptimise selector then (false, cache)
      else
        match searchUniversal handler comb selector node with
        | none =>
            (false, if mayOptimise && first then updateRejectCache cache comb selector else cache)
        | some next => matchChain chain mayOptimise false cache next

/-- This is `match_selector_chain` up to the cascade: the chain matches the node or not. -/
def matchSelectorChain {M V : Type} (node : Node) (selector : Selector M V)
    (cache : List RejectItem) : Bool × List RejectItem :=
  if matchDetails handler node selector.data then
    matchChain handler selector.chain true true cache node
  else (false, cache)

section Document

open Walks

/-- These are the fields of the nodes of a document that the handlers read. A node comes after its
parent and after its previous sibling in the order of the document. -/
structure DomTree (Node : Type) where
  parent : Node → Option Node
  previous : Node → Option Node
  isElement : Node → Bool
  name : Node → LwcString
  classes : Node → List LwcString
  id : Node → Option LwcString
  quirks : Bool
  order : Node → Nat
  parentFirst : Descends parent order
  previousFirst : Descends previous order
  sameParent : ∀ node other, previous node = some other → parent other = parent node

variable (tree : DomTree Node)

/-- Element names are compared without their case. -/
def DomTree.hasName (name : LwcString) (node : Node) : Bool := caselessEqual (tree.name node) name

/-- This is the loop of `dom_element_parent_node`. -/
def DomTree.parentNode (node : Node) : Option Node :=
  (walk tree.parent tree.order node).find? tree.isElement

/-- This is the loop of `sibling_node`. -/
def DomTree.siblingNode (node : Node) : Option Node :=
  (walk tree.previous tree.order node).find? tree.isElement

/-- These are the handlers of `css/select.c` that lead through a document and read names, classes and
ids. Those for attributes and pseudo classes are others. -/
def domHandler (others : SelectHandler Node) : SelectHandler Node :=
  { others with
    walkBound := tree.order
    nodeName := fun node => { name := tree.name node }
    nodeClasses := tree.classes
    nodeId := tree.id
    namedAncestorNode := fun node qname =>
      (walk tree.parent tree.order node).find? fun other =>
        tree.isElement other && tree.hasName qname.name other
    namedParentNode := fun node qname => (tree.parentNode node).filter (tree.hasName qname.name)
    namedSiblingNode := fun node qname => (tree.siblingNode node).filter (tree.hasName qname.name)
    namedGenericSiblingNode := fun node qname =>
      (walk tree.previous tree.order node).find? fun other =>
        tree.isElement other && tree.hasName qname.name other
    parentNode := tree.parentNode
    siblingNode := tree.siblingNode
    nodeHasName := fun node qname => qname.name == universal || tree.hasName qname.name node
    nodeHasClass := fun node name =>
      (tree.classes node).any fun own =>
        if tree.quirks then caselessEqual name own else name == own
    nodeHasId := fun node name => tree.id node == some name }

/-- The document of a body with one paragraph, which is the node `true`. -/
def paragraph : DomTree Bool where
  parent node := if node then some false else none
  previous _ := none
  isElement _ := true
  name node := if node then str "p" else str "body"
  classes _ := []
  id _ := none
  quirks := false
  order node := if node then 1 else 0
  parentFirst node _ found := by
    cases node with
    | true =>
        cases found
        exact Nat.zero_lt_one
    | false => cases found
  previousFirst _ _ found := by cases found
  sameParent _ _ found := by cases found

end Document

end Neosurf.Libcss
