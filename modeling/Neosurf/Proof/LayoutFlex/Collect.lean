/-
This file proves when the items of a flex container are collected into lines, and that the lines
take the items in order.
-/

import Neosurf.Proof.LayoutFlex.CrossPlaces
import Neosurf.Proof.LayoutFlex.Passes

namespace Neosurf.LayoutFlex

variable {ctx ctx' : FlexCtx} {line line' : FlexLineData} {items items' : List FlexItemData}
  {item : FlexItemData} {itemLayout : ItemLayout} {passes rounds : Nat} {success : Bool}

/-- The size along the main axis of the items in the flow. -/
def usedMain (ctx : FlexCtx) (items : List FlexItemData) : Int :=
  (items.map fun item => if item.box.absolute then 0 else posMain ctx item).sum

/-- The next item is in the flow and the line with it would be too long. -/
def Overflows (ctx : FlexCtx) (taken : List FlexItemData) (next : FlexItemData) : Prop :=
  ctx.wrap ≠ .nowrap ∧ next.box.absolute = false ∧ ctx.availableMain ≠ AUTO ∧
    ctx.availableMain < usedMain ctx taken + posMain ctx next

/-- This is an item without what the layout of its line changes. -/
def fixedPart (item : FlexItemData) : FlexItemData :=
  { item with
    box := {}
    targetMainSize := 0
    freeze := false
    minViolation := false
    maxViolation := false }

/-- This is what the lines leave of an item. -/
def unplaced (item : FlexItemData) : FlexItemData := { fixedPart item with line := 0 }

/-- The lines take the items one after the other, from an index and from a number of lines on. Each
takes at least one, and the next item does not fit. The last items may be left. -/
inductive OnLines (overflows : List FlexItemData → FlexItemData → Prop) :
    Nat → Nat → List FlexItemData → List FlexLineData → List FlexItemData → List FlexItemData →
      Prop where
  | stop (first index : Nat) (left : List FlexItemData) :
      OnLines overflows first index left [] left left
  | line {first index : Nat} {taken rest : List FlexItemData} {line : FlexLineData}
      {lines : List FlexLineData} {taken' rest' left : List FlexItemData}
      (begins : line.first = first) (some_taken : taken ≠ [])
      (counted : line.count = taken.length)
      (same : taken'.map unplaced = taken.map unplaced)
      (recorded : ∀ item ∈ taken', item.line = index)
      (ends : ∀ next ∈ rest.head?, overflows taken next)
      (later : OnLines overflows (first + line.count) (index + 1) rest lines rest' left) :
      OnLines overflows first index (taken ++ rest) (line :: lines) (taken' ++ rest') left

section BuildLine

theorem not_fits {used : Int} (rejected : fits ctx line used item = false) :
    ctx.wrap ≠ .nowrap ∧ item.box.absolute = false ∧ ctx.availableMain ≠ AUTO ∧
      ctx.availableMain < used + posMain ctx item ∧ line.count ≠ 0 := by
  simp only [fits, Bool.or_eq_false_iff, decide_eq_false_iff_not] at rejected
  obtain ⟨⟨⟨⟨⟨wraps, exceeds⟩, inFlow⟩, definite⟩, counted⟩, -⟩ := rejected
  exact ⟨wraps, inFlow, definite, by omega, counted⟩

/-- The line takes the first items until one does not fit. -/
theorem buildLoop_takes (ctx : FlexCtx) (line : FlexLineData) (used : Int)
    (items : List FlexItemData) :
    ∃ taken rest, items = taken ++ rest ∧
      (buildLoop ctx line used items).2 =
        taken.map (fun item => { item with line := ctx.lines.length }) ∧
      (buildLoop ctx line used items).1.first = line.first ∧
      (buildLoop ctx line used items).1.count = line.count + taken.length ∧
      ∀ next ∈ rest.head?,
        fits ctx (buildLoop ctx line used items).1 (used + usedMain ctx taken) next = false := by
  induction items generalizing line used with
  | nil =>
      exact ⟨[], [], rfl, rfl, rfl, rfl,
        fun next inside => absurd inside (Option.not_mem_none next)⟩
  | cons item items inductionHypothesis =>
      rw [buildLoop]
      split
      next fitting =>
          obtain ⟨taken, rest, split_items, placed, first, count, ends⟩ := inductionHypothesis
            (addItem ctx line item) (if item.box.absolute then used else used + posMain ctx item)
          have added : (addItem ctx line item).first = line.first ∧
              (addItem ctx line item).count = line.count + 1 := by
            rw [addItem]
            split <;> exact ⟨rfl, rfl⟩
          refine ⟨item :: taken, rest, by rw [split_items, List.cons_append], ?_,
            first.trans added.1, ?_, ?_⟩
          · rw [List.map_cons, ← placed]
          · dsimp only
            rw [count, added.2, List.length_cons, add_assoc, add_comm 1]
          · have sums : used + usedMain ctx (item :: taken) =
                (if item.box.absolute then used else used + posMain ctx item) +
                  usedMain ctx taken := by
              rw [usedMain, List.map_cons, List.sum_cons, ← usedMain]
              split <;> omega
            rw [sums]
            exact ends
      next rejected =>
          refine ⟨[], item :: items, rfl, rfl, rfl, rfl, fun next inside => ?_⟩
          obtain rfl := Option.some.inj inside
          rw [usedMain, List.map_nil, List.sum_nil, add_zero]
          exact Bool.eq_false_of_not_eq_true rejected

/-- A line that is built takes at least one item, and the next one overflows it. -/
theorem buildLine_takes (ctx : FlexCtx) (index : Nat) (more : items ≠ []) :
    ∃ taken rest, items = taken ++ rest ∧ taken ≠ [] ∧
      (buildLine ctx index items).2 =
        taken.map (fun item => { item with line := ctx.lines.length }) ∧
      (buildLine ctx index items).1.first = index ∧
      (buildLine ctx index items).1.count = taken.length ∧
      ∀ next ∈ rest.head?, Overflows ctx taken next := by
  obtain ⟨taken, rest, split_items, placed, first, count, ends⟩ :=
    buildLoop_takes ctx { first := index } 0 items
  rw [zero_add] at count ends
  refine ⟨taken, rest, split_items, ?_, placed, first, count, ?_⟩
  · rintro rfl
    cases rest with
    | nil => exact more split_items
    | cons next rest =>
        obtain ⟨-, -, -, -, counted⟩ := not_fits (ends next rfl)
        exact counted count
  · intro next inside
    obtain ⟨wraps, inFlow, definite, exceeds, -⟩ := not_fits (ends next inside)
    exact ⟨wraps, inFlow, definite, exceeds⟩

end BuildLine

section Keeping

/-- The layout of a line leaves which items it has and their fixed parts. -/
structure Keeps (line : FlexLineData) (items : List FlexItemData) (line' : FlexLineData)
    (items' : List FlexItemData) : Prop where
  first : line'.first = line.first
  count : line'.count = line.count
  crossSize : line.crossSize ≤ line'.crossSize
  fixed : items'.map fixedPart = items.map fixedPart

theorem Keeps.same (line : FlexLineData) (items : List FlexItemData) :
    Keeps line items line items := ⟨rfl, rfl, le_rfl, rfl⟩

theorem Keeps.trans {between : FlexLineData} {middle : List FlexItemData}
    (here : Keeps line items between middle) (later : Keeps between middle line' items') :
    Keeps line items line' items' :=
  ⟨later.first.trans here.first, later.count.trans here.count,
    here.crossSize.trans later.crossSize, later.fixed.trans here.fixed⟩

/-- One item is changed after the other. -/
theorem Keeps.cons {item item' : FlexItemData} {between : FlexLineData}
    (here : Keeps line [item] between [item']) (later : Keeps between items line' items') :
    Keeps line (item :: items) line' (item' :: items') := by
  refine ⟨later.first.trans here.first, later.count.trans here.count,
    here.crossSize.trans later.crossSize, ?_⟩
  rw [List.map_cons, List.map_cons, later.fixed, (List.cons.inj here.fixed).1]

theorem keeps_overItems {change : FlexLineData → FlexItemData → FlexLineData × FlexItemData}
    (keeps : ∀ line item, Keeps line [item] (change line item).1 [(change line item).2])
    (line : FlexLineData) (items : List FlexItemData) :
    Keeps line items (overItems change line items).1 (overItems change line items).2 := by
  induction items generalizing line with
  | nil => exact .same line []
  | cons item rest inductionHypothesis =>
      exact (keeps line item).cons (inductionHypothesis (change line item).1)

theorem keeps_itemFreeze (line : FlexLineData) (item : FlexItemData) (size : Int) :
    Keeps line [item] (itemFreeze line { item with targetMainSize := size }).1
      [(itemFreeze line { item with targetMainSize := size }).2] := ⟨rfl, rfl, le_rfl, rfl⟩

theorem keeps_sizeInflexible (grow : Bool) (line : FlexLineData) (item : FlexItemData) :
    Keeps line [item] (sizeInflexible grow line item).1 [(sizeInflexible grow line item).2] := by
  rcases sizeInflexible_cases grow line item with frozen | ⟨same, -⟩
  · rw [frozen]
    exact keeps_itemFreeze line item item.mainSize
  · rw [same]
    exact .same line [item]

theorem keeps_freezeViolating (total : Int) (line : FlexLineData) (item : FlexItemData) :
    Keeps line [item] (freezeViolating total line item).1
      [(freezeViolating total line item).2] := by
  rw [freezeViolating]
  split
  next => exact .same line [item]
  next =>
      split
      next => exact keeps_itemFreeze line item item.targetMainSize
      next => exact .same line [item]

theorem keeps_shrinkLoop (scaledSum remaining remainder : Int) (line : FlexLineData)
    (items : List FlexItemData) :
    Keeps line items (shrinkLoop scaledSum remaining remainder line items).1
      (shrinkLoop scaledSum remaining remainder line items).2 := by
  induction items generalizing remainder line with
  | nil => exact .same line []
  | cons item rest inductionHypothesis =>
      rw [shrinkLoop]
      split
      next => exact (Keeps.same line [item]).cons (inductionHypothesis remainder line)
      next =>
          split
          next =>
              exact (keeps_itemFreeze line item item.mainSize).cons
                (inductionHypothesis remainder _)
          next =>
              have sized (size : Int) :
                  Keeps line [item] line [{ item with targetMainSize := size }] :=
                ⟨rfl, rfl, le_rfl, rfl⟩
              exact (sized _).cons (inductionHypothesis _ line)

theorem fixed_growLoop {factorSum remaining remainder : Int}
    (grown : growLoop factorSum remaining remainder items = some items') :
    items'.map fixedPart = items.map fixedPart := by
  induction items generalizing remainder items' with
  | nil =>
      obtain rfl := Option.some.inj grown
      rfl
  | cons item rest inductionHypothesis =>
      rw [growLoop] at grown
      split at grown
      next =>
          obtain ⟨rest', later, done⟩ := Option.bind_eq_some_iff.1 grown
          obtain rfl := Option.some.inj done
          rw [List.map_cons, List.map_cons, inductionHypothesis later]
      next =>
          split at grown
          next => exact absurd grown (Option.some_ne_none _).symm
          next =>
              obtain ⟨rest', later, done⟩ := Option.bind_eq_some_iff.1 grown
              obtain rfl := Option.some.inj done
              rw [List.map_cons, List.map_cons, inductionHypothesis later]
              rfl

@[simp] theorem fixedPart_raiseTo (bound : Int) (item : FlexItemData) :
    fixedPart (raiseTo bound item) = fixedPart item := by
  rw [raiseTo]
  split <;> rfl

theorem fixedPart_clamp (item : FlexItemData) : fixedPart (clamp item) = fixedPart item := by
  rw [clamp]
  split
  next => rfl
  next =>
      rw [fixedPart_raiseTo, fixedPart_raiseTo, fixedPart_raiseTo, lowerToMax]
      split <;> rfl

variable {initialFreeMain availableMain : Int} {grow : Bool}

theorem keeps_distributeRemaining
    (distributed : distributeRemaining initialFreeMain availableMain grow line items =
      some (line', items')) : Keeps line items line' items' := by
  rw [distributeRemaining] at distributed
  split at distributed
  case isFalse =>
      obtain ⟨rfl, rfl⟩ := Prod.mk.inj (Option.some.inj distributed)
      exact .same line items
  case isTrue =>
      rw [distributeFreeMain] at distributed
      split at distributed
      next =>
          obtain ⟨grown, shares, done⟩ := Option.bind_eq_some_iff.1 distributed
          obtain ⟨rfl, rfl⟩ := Prod.mk.inj (Option.some.inj done)
          exact ⟨rfl, rfl, le_rfl, fixed_growLoop shares⟩
      next =>
          obtain rfl := congrArg Prod.fst (Option.some.inj distributed)
          obtain rfl := congrArg Prod.snd (Option.some.inj distributed)
          exact keeps_shrinkLoop _ _ _ _ _

theorem keeps_resolvePass
    (passed : resolvePass initialFreeMain availableMain grow line items = some (line', items')) :
    Keeps line items line' items' := by
  obtain ⟨⟨between, shared⟩, distributed, done⟩ := Option.bind_eq_some_iff.1 passed
  have keeps := keeps_overItems (keeps_freezeViolating (totalViolation shared)) between
    (shared.map clamp)
  rw [Option.some.inj done] at keeps
  have clamped : Keeps between shared between (shared.map clamp) := by
    refine ⟨rfl, rfl, le_rfl, ?_⟩
    rw [List.map_map]
    exact List.map_congr_left fun item _ => fixedPart_clamp item
  exact ((keeps_distributeRemaining distributed).trans clamped).trans keeps

theorem keeps_resolveLoop
    (resolved : resolveLoop initialFreeMain availableMain grow passes line items =
      some (line', items')) : Keeps line items line' items' := by
  induction passes generalizing line items with
  | zero =>
      rw [resolveLoop] at resolved
      split at resolved
      next => exact absurd resolved (Option.some_ne_none _).symm
      next =>
          obtain ⟨rfl, rfl⟩ := Prod.mk.inj (Option.some.inj resolved)
          exact .same line items
  | succ passes inductionHypothesis =>
      rw [resolveLoop] at resolved
      split at resolved
      next =>
          obtain ⟨⟨between, passedItems⟩, passed, rest⟩ := Option.bind_eq_some_iff.1 resolved
          exact (keeps_resolvePass passed).trans (inductionHypothesis rest)
      next =>
          obtain ⟨rfl, rfl⟩ := Prod.mk.inj (Option.some.inj resolved)
          exact .same line items

theorem keeps_resolveLine (resolved : resolveLine ctx passes line items = some (line', items')) :
    Keeps line items line' items' :=
  (keeps_overItems (keeps_sizeInflexible _) line items).trans (keeps_resolveLoop resolved)

theorem placeLoop_keeps {placements : List Placement}
    {extra mainPos crossSize mainPos' crossSize' : Int}
    (placed : placeLoop itemLayout ctx extra mainPos crossSize items =
      some (placements, mainPos', crossSize')) :
    crossSize ≤ crossSize' ∧
      (placements.map Placement.item).map fixedPart = items.map fixedPart := by
  induction items generalizing mainPos crossSize placements mainPos' crossSize' with
  | nil =>
      rw [placeLoop, Option.some.injEq, Prod.mk.injEq, Prod.mk.injEq] at placed
      obtain ⟨rfl, -, rfl⟩ := placed
      exact ⟨le_rfl, rfl⟩
  | cons item rest inductionHypothesis =>
      rw [placeLoop, Option.bind_eq_bind, Option.bind_eq_some_iff] at placed
      obtain ⟨b, -, placed⟩ := placed
      rw [Option.bind_eq_bind, Option.bind_eq_some_iff] at placed
      obtain ⟨⟨later, laterPos, laterCross⟩, placedLater, placed⟩ := placed
      rw [Option.pure_def, Option.some.injEq, Prod.mk.injEq, Prod.mk.injEq] at placed
      obtain ⟨rfl, -, rfl⟩ := placed
      obtain ⟨larger, same⟩ := inductionHypothesis placedLater
      have raised (inFlow : Bool) (itemCross : Int) :
          crossSize ≤ if inFlow ∧ crossSize < itemCross then itemCross else crossSize := by
        split
        next above => exact above.2.le
        next => exact le_rfl
      refine ⟨(raised _ _).trans larger, ?_⟩
      rw [List.map_cons, List.map_cons, List.map_cons, same]
      rfl

theorem keeps_placeLineItemsMain {placements : List Placement}
    (placed : placeLineItemsMain itemLayout ctx line items = some (line', placements)) :
    Keeps line items line' (placements.map Placement.item) := by
  obtain ⟨⟨placements', mainPos, crossSize⟩, loop, done⟩ := Option.bind_eq_some_iff.1 placed
  obtain ⟨rfl, rfl⟩ := Prod.mk.inj (Option.some.inj done)
  obtain ⟨larger, same⟩ := placeLoop_keeps loop
  exact ⟨rfl, rfl, larger, same⟩

end Keeping

section Step

variable {first : Nat} {done rest : List FlexItemData} {placements : List Placement}

theorem recorded_of_fixed {index : Nat} {taken : List FlexItemData}
    (fixed : items.map fixedPart =
      (taken.map fun item => { item with line := index }).map fixedPart) :
    items.map unplaced = taken.map unplaced ∧ ∀ item ∈ items, item.line = index := by
  constructor
  · have unlined := congrArg (List.map fun item : FlexItemData => { item with line := 0 }) fixed
    rw [List.map_map, List.map_map, List.map_map] at unlined
    exact unlined
  · intro item inside
    have here := List.mem_map_of_mem (f := fixedPart) inside
    rw [fixed, List.map_map] at here
    obtain ⟨original, -, same⟩ := List.mem_map.1 here
    exact (congrArg FlexItemData.line same).symm

/-- A line that is built and laid out takes the first items, and the others are for later. -/
theorem onLines_buildLine (more : rest ≠ [])
    (keeps : Keeps (buildLine ctx first rest).1 (buildLine ctx first rest).2 line items)
    {lines : List FlexLineData} {rest' left : List FlexItemData}
    (later : OnLines (Overflows ctx) (first + items.length) (ctx.lines.length + 1)
      (rest.drop (buildLine ctx first rest).1.count) lines rest' left) :
    OnLines (Overflows ctx) first ctx.lines.length rest (line :: lines) (items ++ rest') left := by
  obtain ⟨taken, tail, rfl, some_taken, built, begins, count, ends⟩ :=
    buildLine_takes ctx first more
  have fixed := keeps.fixed
  rw [built] at fixed
  have sizes := congrArg List.length fixed
  rw [List.length_map, List.length_map, List.length_map] at sizes
  obtain ⟨same, recorded⟩ := recorded_of_fixed fixed
  rw [count, List.drop_left, sizes, ← count, ← keeps.count] at later
  exact .line (keeps.first.trans begins) some_taken (keeps.count.trans count) same recorded ends
    later

/-- The container after a line is placed. -/
def addLine (ctx : FlexCtx) (line : FlexLineData) : FlexCtx :=
  { ctx with
    lines := ctx.lines ++ [line]
    crossSize := ctx.crossSize + line.crossSize
    mainSize := if ctx.mainSize < line.mainSize then line.mainSize else ctx.mainSize }

theorem collectLoop_nil :
    collectLoop itemLayout passes rounds ctx done [] = some (true, ctx, done) := by
  cases rounds with
  | zero => rfl
  | succ rounds => rfl

theorem collectLoop_unresolved (more : rest ≠ [])
    (unresolved : resolveLine ctx passes (buildLine ctx done.length rest).1
      (buildLine ctx done.length rest).2 = none) :
    collectLoop itemLayout passes rounds ctx done rest = none := by
  cases rounds with
  | zero => exact if_neg more
  | succ rounds =>
      rw [collectLoop, if_neg more]
      dsimp only
      rw [unresolved]

theorem collectLoop_failed (more : rest ≠ [])
    (resolved : resolveLine ctx passes (buildLine ctx done.length rest).1
      (buildLine ctx done.length rest).2 = some (line, items))
    (failed : placeLineItemsMain itemLayout ctx line items = none) :
    collectLoop itemLayout passes (rounds + 1) ctx done rest =
      some (false, { ctx with lines := ctx.lines ++ [line] },
        done ++ items ++ rest.drop (buildLine ctx done.length rest).1.count) := by
  rw [collectLoop, if_neg more]
  dsimp only
  rw [resolved]
  dsimp only
  rw [failed]

theorem collectLoop_placed (more : rest ≠ [])
    (resolved : resolveLine ctx passes (buildLine ctx done.length rest).1
      (buildLine ctx done.length rest).2 = some (line, items))
    (placed : placeLineItemsMain itemLayout ctx line items = some (line', placements)) :
    collectLoop itemLayout passes (rounds + 1) ctx done rest =
      collectLoop itemLayout passes rounds (addLine ctx line')
        (done ++ placements.map Placement.item)
        (rest.drop (buildLine ctx done.length rest).1.count) := by
  rw [collectLoop, if_neg more]
  dsimp only
  rw [resolved]
  dsimp only
  rw [placed]
  rfl

end Step

section Collect

variable {done rest : List FlexItemData}

/-- Nothing is left, or a line is built and resolved, which may then fail to be placed. -/
theorem collectLoop_cases {result : Bool × FlexCtx × List FlexItemData}
    (collected : collectLoop itemLayout passes rounds ctx done rest = some result) :
    rest = [] ∧ result = (true, ctx, done) ∨
      ∃ rounds' line items, rounds = rounds' + 1 ∧ rest ≠ [] ∧
        resolveLine ctx passes (buildLine ctx done.length rest).1
          (buildLine ctx done.length rest).2 = some (line, items) ∧
        (placeLineItemsMain itemLayout ctx line items = none ∧
            result = (false, { ctx with lines := ctx.lines ++ [line] },
              done ++ items ++ rest.drop (buildLine ctx done.length rest).1.count) ∨
          ∃ line' placements,
            placeLineItemsMain itemLayout ctx line items = some (line', placements) ∧
            collectLoop itemLayout passes rounds' (addLine ctx line')
              (done ++ placements.map Placement.item)
              (rest.drop (buildLine ctx done.length rest).1.count) = some result) := by
  by_cases more : rest = []
  · subst more
    rw [collectLoop_nil] at collected
    exact .inl ⟨rfl, (Option.some.inj collected).symm⟩
  · refine .inr ?_
    cases rounds with
    | zero => exact absurd (collected.symm.trans (if_neg more)) (Option.some_ne_none result)
    | succ rounds =>
        cases resolved : resolveLine ctx passes (buildLine ctx done.length rest).1
            (buildLine ctx done.length rest).2 with
        | none =>
            rw [collectLoop_unresolved more resolved] at collected
            exact absurd collected (Option.some_ne_none result).symm
        | some lineItems =>
            obtain ⟨line, items⟩ := lineItems
            refine ⟨rounds, line, items, rfl, more, rfl, ?_⟩
            cases placed : placeLineItemsMain itemLayout ctx line items with
            | none =>
                rw [collectLoop_failed more resolved placed] at collected
                exact .inl ⟨rfl, (Option.some.inj collected).symm⟩
            | some lineItems =>
                rw [collectLoop_placed more resolved placed] at collected
                exact .inr ⟨lineItems.1, lineItems.2, rfl, collected⟩

/-- What the loop answers are the items on lines, and none is left after a success. -/
theorem collectLoop_onLines
    (collected : collectLoop itemLayout passes rounds ctx done rest = some (success, ctx', items')) :
    ∃ lines rest' left, ctx'.lines = ctx.lines ++ lines ∧ items' = done ++ rest' ∧
      OnLines (Overflows ctx) done.length ctx.lines.length rest lines rest' left ∧
      (success = true → left = []) := by
  induction rounds using Nat.strong_induction_on generalizing ctx done rest with
  | _ rounds inductionHypothesis =>
      rcases collectLoop_cases collected with
        ⟨rfl, same⟩ | ⟨rounds', line, items, rfl, more, resolved, ⟨-, same⟩ | ⟨line', placements,
          placed, collected⟩⟩
      · rw [Prod.mk.injEq, Prod.mk.injEq] at same
        obtain ⟨rfl, rfl, rfl⟩ := same
        exact ⟨[], [], [], (List.append_nil _).symm, (List.append_nil _).symm, .stop _ _ [],
          fun _ => rfl⟩
      · rw [Prod.mk.injEq, Prod.mk.injEq] at same
        obtain ⟨rfl, rfl, rfl⟩ := same
        exact ⟨[line], _, _, rfl, List.append_assoc _ _ _,
          onLines_buildLine more (keeps_resolveLine resolved) (.stop _ _ _),
          fun succeeded => absurd succeeded Bool.false_ne_true⟩
      · have keeps := (keeps_resolveLine resolved).trans (keeps_placeLineItemsMain placed)
        obtain ⟨lines, rest', left, sameLines, rfl, onLines, none_left⟩ :=
          inductionHypothesis rounds' (Nat.lt_succ_self _) collected
        refine ⟨line' :: lines, placements.map Placement.item ++ rest', left, ?_,
          List.append_assoc _ _ _, ?_, none_left⟩
        · rw [sameLines, addLine, List.append_assoc, List.singleton_append]
        · refine onLines_buildLine more keeps ?_
          rw [← List.length_append]
          have indices : (addLine ctx line').lines.length = ctx.lines.length + 1 := by
            rw [addLine, List.length_append, List.length_singleton]
          rw [← indices]
          exact onLines

/-- The state of the loop when it comes to a line. -/
inductive Collects (itemLayout : ItemLayout) : FlexCtx → List FlexItemData → List FlexItemData →
    FlexCtx → List FlexItemData → List FlexItemData → Prop where
  | here (ctx : FlexCtx) (done rest : List FlexItemData) :
      Collects itemLayout ctx done rest ctx done rest
  | line {ctx ctx' : FlexCtx} {done rest done' rest' items : List FlexItemData}
      {line line' : FlexLineData} {placements : List Placement} {passes : Nat} (more : rest ≠ [])
      (resolved : resolveLine ctx passes (buildLine ctx done.length rest).1
        (buildLine ctx done.length rest).2 = some (line, items))
      (placed : placeLineItemsMain itemLayout ctx line items = some (line', placements))
      (later : Collects itemLayout (addLine ctx line') (done ++ placements.map Placement.item)
        (rest.drop (buildLine ctx done.length rest).1.count) ctx' done' rest') :
      Collects itemLayout ctx done rest ctx' done' rest'

/-- The loop of the line that is built next ends and does not divide by zero. -/
def Resolves (ctx : FlexCtx) (first : Nat) (rest : List FlexItemData) : Prop :=
  ∃ passes, (resolveLine ctx passes (buildLine ctx first rest).1 (buildLine ctx first rest).2).isSome

section Passes

variable {initialFreeMain availableMain : Int} {grow : Bool}
  {result : FlexLineData × List FlexItemData}

/-- More passes do not change the result. -/
theorem resolveLoop_succ
    (resolved : resolveLoop initialFreeMain availableMain grow passes line items = some result) :
    resolveLoop initialFreeMain availableMain grow (passes + 1) line items = some result := by
  induction passes generalizing line items with
  | zero =>
      rw [resolveLoop] at resolved
      split at resolved
      next => exact absurd resolved (Option.some_ne_none result).symm
      next ended => exact (if_neg ended).trans resolved
  | succ passes inductionHypothesis =>
      rw [resolveLoop] at resolved ⊢
      split at resolved
      next more =>
          obtain ⟨between, passed, rest⟩ := Option.bind_eq_some_iff.1 resolved
          rw [if_pos more, passed]
          exact inductionHypothesis rest
      next ended => rw [if_neg ended, resolved]

theorem resolveLine_le {passes' : Nat} (fewer : passes ≤ passes')
    (resolved : resolveLine ctx passes line items = some result) :
    resolveLine ctx passes' line items = some result := by
  induction fewer with
  | refl => exact resolved
  | step _ inductionHypothesis => exact resolveLoop_succ inductionHypothesis

/-- A line has one result. -/
theorem resolveLine_unique {passes' : Nat} {result' : FlexLineData × List FlexItemData}
    (resolved : resolveLine ctx passes line items = some result)
    (resolved' : resolveLine ctx passes' line items = some result') : result = result' := by
  have first := resolveLine_le (le_max_left passes passes') resolved
  rw [resolveLine_le (le_max_right passes passes') resolved'] at first
  exact (Option.some.inj first).symm

end Passes

theorem collectLoop_le {passes' : Nat} (fewer : passes ≤ passes')
    {result : Bool × FlexCtx × List FlexItemData}
    (collected : collectLoop itemLayout passes rounds ctx done rest = some result) :
    collectLoop itemLayout passes' rounds ctx done rest = some result := by
  induction rounds using Nat.strong_induction_on generalizing ctx done rest with
  | _ rounds inductionHypothesis =>
      rcases collectLoop_cases collected with
        ⟨rfl, rfl⟩ | ⟨rounds', line, items, rfl, more, resolved, ⟨failed, rfl⟩ | ⟨line', placements,
          placed, collected⟩⟩
      · exact collectLoop_nil
      · exact collectLoop_failed more (resolveLine_le fewer resolved) failed
      · rw [collectLoop_placed more (resolveLine_le fewer resolved) placed]
        exact inductionHypothesis rounds' (Nat.lt_succ_self _) collected

/-- A line that the loop comes to was resolved. -/
theorem resolves_of_collectLoop {result : Bool × FlexCtx × List FlexItemData}
    {done' rest' : List FlexItemData}
    (collected : collectLoop itemLayout passes rounds ctx done rest = some result)
    (reached : Collects itemLayout ctx done rest ctx' done' rest') (more : rest' ≠ []) :
    Resolves ctx' done'.length rest' := by
  induction reached generalizing rounds with
  | here ctx done rest =>
      rcases collectLoop_cases collected with ⟨none_left, -⟩ | ⟨_, line, items, -, -, resolved, -⟩
      · exact absurd none_left more
      · exact ⟨passes, by rw [resolved]; rfl⟩
  | line some_left resolved placed later inductionHypothesis =>
      rcases collectLoop_cases collected with
        ⟨none_left, -⟩ | ⟨rounds', line, items, -, -, resolved', ⟨failed, -⟩ | ⟨line', placements,
          placed', collected⟩⟩
      · exact absurd none_left some_left
      · obtain ⟨rfl, rfl⟩ := Prod.mk.inj (resolveLine_unique resolved resolved')
        rw [placed] at failed
        exact absurd failed (Option.some_ne_none _)
      · obtain ⟨rfl, rfl⟩ := Prod.mk.inj (resolveLine_unique resolved resolved')
        obtain ⟨rfl, rfl⟩ := Prod.mk.inj (Option.some.inj (placed.symm.trans placed'))
        exact inductionHypothesis collected more

/-- The loop ends after as many rounds as there are items, when every line is resolved. -/
theorem collectLoop_isSome
    (resolves : ∀ ctx' done' rest', Collects itemLayout ctx done rest ctx' done' rest' →
      rest' ≠ [] → Resolves ctx' done'.length rest') (enough : rest.length ≤ rounds) :
    ∃ passes, (collectLoop itemLayout passes rounds ctx done rest).isSome := by
  induction rounds generalizing ctx done rest with
  | zero =>
      obtain rfl := List.eq_nil_of_length_eq_zero (Nat.le_zero.1 enough)
      exact ⟨0, by rw [collectLoop_nil]; rfl⟩
  | succ rounds inductionHypothesis =>
      by_cases more : rest = []
      · subst more
        exact ⟨0, by rw [collectLoop_nil]; rfl⟩
      · obtain ⟨passes, resolved⟩ := resolves ctx done rest (.here ctx done rest) more
        obtain ⟨⟨line, items⟩, resolved⟩ := Option.isSome_iff_exists.1 resolved
        cases placed : placeLineItemsMain itemLayout ctx line items with
        | none => exact ⟨passes, by rw [collectLoop_failed more resolved placed]; rfl⟩
        | some lineItems =>
            obtain ⟨line', placements⟩ := lineItems
            have fewer : (rest.drop (buildLine ctx done.length rest).1.count).length ≤ rounds := by
              obtain ⟨taken, tail, rfl, some_taken, -, -, count, -⟩ :=
                buildLine_takes ctx done.length more
              have positive := List.length_pos_of_ne_nil some_taken
              rw [List.length_append] at enough
              rw [count, List.drop_left]
              omega
            obtain ⟨passes', collected⟩ := inductionHypothesis
              (fun ctx' done' rest' reached => resolves ctx' done' rest'
                (.line more resolved placed reached)) fewer
            obtain ⟨result, collected⟩ := Option.isSome_iff_exists.1 collected
            refine ⟨max passes passes', ?_⟩
            rw [collectLoop_placed more (resolveLine_le (le_max_left _ _) resolved) placed,
              collectLoop_le (le_max_right _ _) collected]
            rfl

/-- Two items of six pixels each, which do not flex. -/
def sixPixels : FlexItemData where
  box := {}
  shrink := 0
  grow := 0
  baseSize := 6
  mainSize := 6
  shrinkNonneg := noFactor_nonneg
  growNonneg := noFactor_nonneg

end Collect

end Neosurf.LayoutFlex
