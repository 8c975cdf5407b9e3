import Pruner.Te.Stage

/-!
# Passing information along the relations of a stage

`src/te/schedule/message_passing.cc`: domains are passed down from the axes of an
operation to its leaves, index expressions are passed up from the leaves, and marks
are passed both ways.  The dataflow rewrites of a schedule call these passes with
`allow_missing` set, so a relation whose variables are not reached is skipped.

Domains are kept as computed; the symbolic simplifier is represented by constant
folding.  Of the passes over index expressions only the set of reached variables is
modelled, with the lookups that can fail.

## Main definitions

* `passDownDomain` — the domains of all variables reached from the given ones.
* `passUpBitMaskOr`, `passDownBitMaskOr` — the variables touched by one of them.
* `passUpIndex`, `boundCheckDefined` — which variables get an index, and whether the
  bound checks find everything they look up.
-/

namespace Pruner.Te

open Tir Function

/-- A table from variables to their domains. -/
abbrev DomMap := IterVar → Option Range

/-- `Update`: a new entry is stored, an old one has to agree with it. -/
def DomMap.update (dom : DomMap) (iv : IterVar) (r : Range) : Option DomMap :=
  match dom iv with
  | none => some (Function.update dom iv (some r))
  | some old => if old.min.isZero ∧ r.extent = old.extent then some dom else none

/-- The local `ceil_div` of `PassDownDomain`. -/
def domCeilDiv (a b : PrimExpr) : Option PrimExpr := do
  let rem ← a.floormod b
  if rem.isZero then a.floordiv b else (a.add (b.sub (.intImm 1))).floordiv b

/-- One relation of `PassDownDomain`. -/
def passDownDomainRel (dom : DomMap) : Relation → Option DomMap
  | .split parent outer inner factor nparts =>
    match dom parent with
    | none => some dom
    | some range =>
      if (dom inner).isSome then none
      else match factor, nparts with
        | some f, _ => do
          let dom ← dom.update inner (.upTo f)
          let e ← domCeilDiv range.extent (.intImm f)
          dom.update outer ⟨.intImm 0, e⟩
        | none, some n => do
          let dom ← dom.update outer (.upTo n)
          let e ← domCeilDiv range.extent (.intImm n)
          dom.update inner ⟨.intImm 0, e⟩
        | none, none => none
  | .fuse outer inner fused =>
    match dom outer, dom inner with
    | some ro, some ri =>
      some (update dom fused (some ⟨.intImm 0, ro.extent.mul ri.extent⟩))
    | _, _ => some dom
  | .singleton iter => dom.update iter (.upTo 1)

/-- `PassDownDomain`: pass the domains down, then look up every loop that is bound to
a thread. -/
def passDownDomain (s : Stage) (dom : DomMap) : Option DomMap := do
  let dom ← s.relations.foldlM passDownDomainRel dom
  if ∀ p ∈ s.iterVarAttrs, p.2.bindThread.isSome → (dom p.1).isSome then some dom else none

/-- One relation of `PassUpBitMaskOr`. -/
def touchUp (touched : List IterVar) : Relation → List IterVar
  | .split parent outer inner _ _ =>
    if inner ∈ touched ∨ outer ∈ touched then parent :: touched else touched
  | .fuse outer inner fused =>
    if fused ∈ touched then outer :: inner :: touched else touched
  | .singleton _ => touched

/-- `PassUpBitMaskOr`, from the last relation to the first. -/
def passUpBitMaskOr (s : Stage) (touched : List IterVar) : List IterVar :=
  s.relations.reverse.foldl touchUp touched

/-- One relation of `PassDownBitMaskOr`. -/
def touchDown (touched : List IterVar) : Relation → List IterVar
  | .split parent outer inner _ _ =>
    if parent ∈ touched then outer :: inner :: touched else touched
  | .fuse outer inner fused =>
    if outer ∈ touched ∨ inner ∈ touched then fused :: touched else touched
  | .singleton iter => iter :: touched

/-- `PassDownBitMaskOr`, from the first relation to the last. -/
def passDownBitMaskOr (s : Stage) (touched : List IterVar) : List IterVar :=
  s.relations.foldl touchDown touched

/-- One relation of `PassUpIndex`, on the set of variables that have an index. -/
def passUpIndexRel (dom : DomMap) (known : List IterVar) : Relation → Option (List IterVar)
  | .split parent outer inner _ _ =>
    if outer ∈ known ∧ inner ∈ known then
      if (dom inner).isSome ∧ (dom parent).isSome then some (parent :: known) else none
    else some known
  | .fuse outer inner fused =>
    if fused ∈ known then
      if (dom inner).isSome ∧ (dom outer).isSome then some (outer :: inner :: known) else none
    else some known
  | .singleton _ => some known

/-- `PassUpIndex`: the variables that get an index, starting from the given ones. -/
def passUpIndex (s : Stage) (dom : DomMap) (known : List IterVar) : Option (List IterVar) :=
  s.relations.reverse.foldlM (passUpIndexRel dom) known

/-- One relation of `PassUpBoundCheck`: whether a variable needs a check.  It is an
error to look at a variable without a mark. -/
def passUpBoundCheckRel (dom : DomMap) (state : IterVar → Option Bool) :
    Relation → Option (IterVar → Option Bool)
  | .split parent outer inner _ _ => do
    let o ← state outer
    let i ← state inner
    match dom inner, dom outer with
    | some ri, some ro =>
      let rp ← dom parent
      some (update state parent
        (some (o || i || decide (rp.extent ≠ ri.extent.mul ro.extent))))
    | _, _ => some (update state parent (some true))
  | .fuse outer inner fused => do
    let f ← state fused
    some (update (update state outer (some f)) inner (some f))
  | .singleton _ => some state

/-- Whether `MakeBoundCheck` finds everything it looks up. -/
def boundCheckDefined (s : Stage) (dom : DomMap) (known skip : List IterVar) : Bool :=
  match s.relations.reverse.foldlM (passUpBoundCheckRel dom)
      (fun iv => if iv ∈ s.leafIterVars then some false else none) with
  | none => false
  | some state =>
    (s.allIterVars.all fun iv =>
      iv ∈ skip || iv.iterType = .kOpaque ||
        match state iv with
        | none => false
        | some check => !check || ((dom iv).isSome && iv ∈ known)) &&
    (s.op.rootIterVars.all fun iv =>
      iv ∈ skip || iv.iterType = .kOpaque || (dom iv).isSome)

end Pruner.Te
