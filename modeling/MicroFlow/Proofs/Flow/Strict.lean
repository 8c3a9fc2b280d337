import MicroFlow.Proofs.Flow.Fixpoint
import MicroFlow.Proofs.Flow.LiveVariables
import MicroFlow.Proofs.Flow.ReachingDefinitions
import MicroFlow.Proofs.Flow.SignDetection

/-!
# Analyses that check every access

The operations of the analyses are forgiving: a slot that is not there is empty, lists of
different lengths are cut, a relation that is none is only refused when there are signs to
compare, and the tables of the operators have an answer for every pair of signs.  Here they are
written once more, and forgive nothing.  `Strict.Operations` break off with a fault

* at a position beyond the end of a list, or a bit beyond the last variable or site;
* when two lists are combined and the second one is shorter;
* when the table of a quotient or remainder is asked about a divisor other than `-`, `0` and `+`;
* at an operator in arithmetic that is not arithmetic, and at a comparison that is no relation;
* at a leaf of a guard that is no truth value, and at one of arithmetic that is no number.

On the mappings that come up in a solver nothing of this happens: the strict operations succeed
and do what the operations of the analysis do (`Operations.Agree`), for all three analyses.  So
the solvers could use either (`Operations.Agree.update`).
-/

namespace MicroFlow

namespace Strict

variable {α β : Type}

/-! ## Lists and sets -/

/-- The entry at a position, which has to be there. -/
def entry (xs : List α) (i : Nat) : Except Fault α :=
  match xs[i]? with
  | some x => .ok x
  | none => .error .brokenReference

/-- Changes the entry at a position, which has to be there. -/
def change (xs : List α) (i : Nat) (f : α → α) : Except Fault (List α) := do
  let x ← entry xs i
  return xs.set i (f x)

/-- Combines the entries of two lists; the second one must not be shorter. -/
def combine (f : α → α → β) : List α → List α → Except Fault (List β)
  | [], _ => .ok []
  | _ :: _, [] => .error .brokenReference
  | x :: xs, y :: ys => do return f x y :: (← combine f xs ys)

/-- A bit of a set of numbers below `n`. -/
def bit (n i : Nat) : Except Fault Nat := if i < n then .ok i else .error .brokenReference

variable {i : Nat}

theorem entry_eq_ok {xs : List α} (h : i < xs.length) (d : α) :
    entry xs i = .ok (xs[i]?.getD d) := by
  rw [entry, List.getElem?_eq_getElem h]
  rfl

theorem change_eq_ok {xs : List α} (h : i < xs.length) (f : α → α) :
    change xs i f = .ok (xs.modify i f) := by
  rw [change, entry, List.modify_eq_set_getElem?, List.getElem?_eq_getElem h]
  rfl

/-- Lists of one length are combined member by member. -/
theorem combine_eq_ok {f : α → α → β} : ∀ {xs ys : List α}, xs.length = ys.length →
    combine f xs ys = .ok (List.zipWith f xs ys)
  | [], _, _ => rfl
  | _ :: _, [], h => by cases h
  | x :: xs, y :: ys, h => by
    rw [combine, combine_eq_ok (Nat.succ.inj h)]
    rfl

theorem bit_eq_ok {n : Nat} (h : i < n) : bit n i = .ok i := if_pos h

/-! ## Signs -/

/-- A table that has entries for the divisors `-`, `0` and `+` only. -/
def guarded (table : Sign → Sign → SignSet) (a b : Sign) : Except Fault SignSet :=
  match b with
  | .minus | .zero | .plus => .ok (table a b)
  | .undef => .error .brokenReference

/-- Collects a table over all pairs; a pair with `undef` gives `undef`, and the table is not
asked. -/
def lift (table : Sign → Sign → Except Fault SignSet) (l r : SignSet) : Except Fault SignSet := do
  let parts ← (l.signs.flatMap fun a => r.signs.map fun b => (a, b)).mapM fun p =>
    if p.1 = .undef ∨ p.2 = .undef then .ok (.single .undef) else table p.1 p.2
  return .unions parts

/-- Evaluates an operator, which has to be arithmetic, on two sets. -/
def evaluate (op : Operator) (l r : SignSet) : Except Fault SignSet :=
  match op with
  | .arith .div => lift (guarded Sign.div) l r
  | .arith .mod => lift (guarded Sign.mod) l r
  | .arith op => .ok (SignSet.apply op l r)
  | _ => .error (.notArithmetic op)

/-- Narrows two sets by an operator, which has to be a relation. -/
def narrowBy (op : Operator) (l r : SignSet) : Except Fault (SignSet × SignSet) :=
  match op with
  | .rel op => .ok (SignSet.narrow op l r)
  | _ => .error (.notRelational op.symbol)

/-- The signs in the slot of an access. -/
def signsOf (vars : Variables) (m : Signs) (a : Access) : Except Fault SignSet := do
  entry m.slots (← Signs.slotOf vars a)

/-- The signs of an expression, which has to be arithmetic. -/
def eval (vars : Variables) (m : Signs) : Expr → Except Fault SignSet
  | .literal n => .ok (.single (.of n))
  | .scalar x => signsOf vars m (.scalar x)
  | .element x i l => signsOf vars m (.element x i l)
  | .field x s => signsOf vars m (.field x s)
  | .odd x => signsOf vars m (.odd x)
  | .node op l r => do
    let a ← eval vars m l
    let b ← eval vars m r
    evaluate op a b
  | .truth b => .error (.notNumber (.truth b))
  | .symbol s => .error (.notNumber (.symbol s))
  | .missing => .error .brokenReference

/-- Replaces the signs in the slot of a target, or adds to them. -/
def store (vars : Variables) (m : Signs) (target : Access) (v : SignSet) : Except Fault Signs := do
  let i ← Signs.slotOf vars target
  let slots ← change m.slots i fun s => if target.kind = .array then s.union v else v
  return { m with slots }

/-- Keeps the given signs of an operand. -/
def restrict (vars : Variables) (m : Signs) (e : Expr) (keep : SignSet) : Except Fault Signs :=
  match Signs.narrowable? e with
  | none => .ok m
  | some a => do
    let i ← Signs.slotOf vars a
    let s ← entry m.slots i
    let slots ← change m.slots i fun s => s.inter keep
    return if (s.inter keep).isEmpty then m.bottom else { m with slots }

/-- Keeps the states in which a relation can hold. -/
def narrowRelation (vars : Variables) (m : Signs) (op : Operator) (l r : Expr) :
    Except Fault Signs := do
  let a ← eval vars m l
  let b ← eval vars m r
  let (keepL, keepR) ← narrowBy op a b
  if keepL.isEmpty then return m.bottom
  let left ← restrict vars m l keepL
  if left.unreachable then return left
  restrict vars left r keepR

/-- Merges two states. -/
def mergeSigns (m n : Signs) : Except Fault Signs :=
  if m.unreachable then .ok n
  else if n.unreachable then .ok m
  else do return { slots := ← combine SignSet.union m.slots n.slots }

/-- Compares two states. -/
def includedSigns (m n : Signs) : Except Fault Bool :=
  if m.unreachable then .ok true
  else if n.unreachable then .ok false
  else do return (← combine SignSet.subset m.slots n.slots).all id

/-- The states that both describe. -/
def meetSigns (m n : Signs) : Except Fault Signs :=
  if m.unreachable then .ok m
  else if n.unreachable then .ok n
  else do
    let slots ← combine SignSet.inter m.slots n.slots
    return if slots.any SignSet.isEmpty then m.bottom else { slots }

/-- Keeps the states in which a guard, or its negation, can hold. -/
def narrow (vars : Variables) (m : Signs) (negated : Bool) : Expr → Except Fault Signs
  | .truth b => .ok (if b != negated then m else m.bottom)
  | .node .not _ r => narrow vars m (!negated) r
  | .node .and l r => do
    let a ← narrow vars m negated l
    let b ← narrow vars m negated r
    if negated then mergeSigns a b else meetSigns a b
  | .node .or l r => do
    let a ← narrow vars m negated l
    let b ← narrow vars m negated r
    if negated then meetSigns a b else mergeSigns a b
  | .node op l r => narrowRelation vars m (Signs.relationOf op negated) l r
  | _ => .error .brokenReference

/-- What an edge does to the signs. -/
def transferSigns (vars : Variables) (m : Signs) (e : Edge) : Except Fault Signs :=
  if m.unreachable then .ok m
  else
    match e.action.kind, e.action.target with
    | .assign, some target => do store vars m target (← eval vars m e.action.value)
    | .read, some target => store vars m target .top
    | .boolean, _ => narrow vars m false e.action.guard
    | .write, _ | .declare, _ => .ok m
    | _, _ => .error .brokenReference

/-- The tables are asked about no divisor but `-`, `0` and `+`. -/
theorem lift_guarded {table : Sign → Sign → SignSet}
    (h : ∀ a b, a = .undef ∨ b = .undef → table a b = .single .undef) (l r : SignSet) :
    lift (guarded table) l r = .ok (SignSet.lift table l r) := by
  have hparts : (l.signs.flatMap fun a => r.signs.map fun b => (a, b)).mapM (fun p : Sign × Sign =>
      if p.1 = .undef ∨ p.2 = .undef then .ok (.single .undef) else guarded table p.1 p.2) =
      .ok ((l.signs.flatMap fun a => r.signs.map fun b => (a, b)).map fun p => table p.1 p.2) := by
    rw [mapM_eq_ok, List.forall₂_map_right_iff]
    refine List.forall₂_same.mpr fun p _ => ?_
    obtain ⟨a, b⟩ := p
    split
    · rename_i hundef
      rw [h a b hundef]
    · rename_i hdefined
      cases b with
      | minus | zero | plus => rfl
      | undef => exact absurd (.inr rfl) hdefined
  rw [lift, hparts, List.map_flatMap]
  simp only [List.map_map]
  rfl

/-- Strict tables give the same signs, since `undef` is handled before they are asked. -/
theorem evaluate_eq_ok (op : ArithOp) (l r : SignSet) :
    evaluate (.arith op) l r = .ok (SignSet.apply op l r) := by
  have hdiv : ∀ a b, a = .undef ∨ b = .undef → Sign.div a b = .single .undef := by
    rintro a b (rfl | rfl)
    · rfl
    · cases a <;> rfl
  have hmod : ∀ a b, a = .undef ∨ b = .undef → Sign.mod a b = .single .undef := by
    rintro a b (rfl | rfl)
    · rfl
    · cases a <;> rfl
  cases op with
  | add | sub | mul => rfl
  | div => exact lift_guarded hdiv l r
  | mod => exact lift_guarded hmod l r

section Signs

variable {vars : Variables} {m n : Signs}

theorem signsOf_eq (hm : m.Shaped vars) (a : Access) : signsOf vars m a = m.of vars a := by
  cases hi : Signs.slotOf vars a with
  | error f => simp only [signsOf, Signs.of, hi, bind, Except.bind]
  | ok i =>
    have hlt : i < m.slots.length := hm.symm ▸ Signs.slotOf_lt hi
    simp only [signsOf, Signs.of, hi, bind, Except.bind, entry_eq_ok hlt .empty]
    rfl

/-- Strict evaluation finds every slot. -/
theorem eval_eq (hm : m.Shaped vars) {e : Expr} (he : e.Numeric vars) :
    eval vars m e = m.eval vars e := by
  induction he with
  | literal n => rfl
  | @access a i _ =>
    rw [Signs.eval_toExpr, ← signsOf_eq hm]
    cases a <;> rfl
  | node op _ _ ihl ihr =>
    simp only [eval, Signs.eval, ihl, ihr, evaluate_eq_ok]
    rfl

/-- So does strict storing. -/
theorem store_eq (hm : m.Shaped vars) (target : Access) (v : SignSet) :
    store vars m target v = m.store vars target v := by
  cases hi : Signs.slotOf vars target with
  | error f => simp only [store, Signs.store, hi, bind, Except.bind]
  | ok i =>
    have hlt : i < m.slots.length := hm.symm ▸ Signs.slotOf_lt hi
    simp only [store, Signs.store, hi, bind, Except.bind, change_eq_ok hlt]

/-- Restricting a variable is within its mapping. -/
theorem restrict_eq (hm : m.Shaped vars) (e : Expr) (keep : SignSet) :
    restrict vars m e keep = m.restrict vars e keep := by
  unfold restrict Signs.restrict
  cases Signs.narrowable? e with
  | none => rfl
  | some a =>
    cases hi : Signs.slotOf vars a with
    | error f => simp only [hi, bind, Except.bind]
    | ok i =>
      have hlt : i < m.slots.length := hm.symm ▸ Signs.slotOf_lt hi
      have hset : m.slots.modify i (fun s => s.inter keep) =
          m.slots.set i ((m.slot i).inter keep) := by
        rw [List.modify_eq_set_getElem?, Signs.slot, List.getElem?_eq_getElem hlt]
        rfl
      simp only [hi, bind, Except.bind, entry_eq_ok hlt .empty, change_eq_ok hlt, hset]
      rfl

theorem mergeSigns_eq (hm : m.Shaped vars) (hn : n.Shaped vars) :
    mergeSigns m n = .ok (m.merge n) := by
  unfold mergeSigns Signs.merge
  rw [combine_eq_ok (hm.length_eq hn)]
  split
  · rfl
  · split <;> rfl

theorem meetSigns_eq (hm : m.Shaped vars) (hn : n.Shaped vars) :
    meetSigns m n = .ok (m.meet n) := by
  unfold meetSigns Signs.meet
  rw [combine_eq_ok (hm.length_eq hn)]
  split
  · rfl
  · split <;> rfl

theorem includedSigns_eq (hm : m.Shaped vars) (hn : n.Shaped vars) :
    includedSigns m n = .ok (m.included n) := by
  unfold includedSigns Signs.included
  rw [combine_eq_ok (hm.length_eq hn)]
  cases m.unreachable with
  | true => rfl
  | false => cases n.unreachable <;> rfl

theorem narrower_self (hm : m.Shaped vars) (hr : m.unreachable = false) : Signs.Narrower vars m m :=
  ⟨hm, hm, hr, hr, fun _ => SignSet.subset_refl _⟩

/-- Narrowing by a relation is the same. -/
theorem narrowRelation_eq (hm : m.Shaped vars) (hr : m.unreachable = false) (op : RelOp)
    {l r : Expr}
    (hl : l.Numeric vars) (hr' : r.Numeric vars) :
    narrowRelation vars m (.rel op) l r = m.narrowRelation vars (.rel op) l r := by
  obtain ⟨a, _, ha, -⟩ := Signs.eval_mono (narrower_self hm hr) hl
  obtain ⟨b, _, hb, -⟩ := Signs.eval_mono (narrower_self hm hr) hr'
  obtain ⟨left, _, hleft, -, hshaped⟩ := Signs.restrict_mono (narrower_self hm hr) hl
    (SignSet.subset_refl (SignSet.narrow op a b).1)
  rw [Signs.narrowRelation_eq ha hb hleft]
  simp only [narrowRelation, eval_eq hm hl, eval_eq hm hr', ha, hb, narrowBy, restrict_eq hm, hleft,
    restrict_eq hshaped.left, bind, Except.bind]
  split
  · rfl
  · split <;> rfl

/-- And so is narrowing by a condition. -/
theorem narrow_eq (hm : m.Shaped vars) (hr : m.unreachable = false) {e : Expr}
    (he : e.Logical vars) :
    ∀ negated, narrow vars m negated e = m.narrow vars negated e := by
  induction he with
  | truth b => exact fun negated => rfl
  | rel op hl hr' =>
    intro negated
    simp only [narrow, Signs.narrow, Signs.relationOf_rel]
    exact narrowRelation_eq hm hr _ hl hr'
  | and hl hr' ihl ihr | or hl hr' ihl ihr =>
    intro negated
    obtain ⟨a, _, ha, -, hsa⟩ := Signs.narrow_mono (narrower_self hm hr) hl negated
    obtain ⟨b, _, hb, -, hsb⟩ := Signs.narrow_mono (narrower_self hm hr) hr' negated
    simp only [narrow, Signs.narrow, ihl, ihr, ha, hb, bind, Except.bind]
    cases negated <;> first
      | exact mergeSigns_eq hsa.left hsb.left
      | exact meetSigns_eq hsa.left hsb.left
  | not l _ ih => exact fun negated => ih (!negated)

/-- Strict transfer is transfer. -/
theorem transferSigns_eq (hm : m.Shaped vars) {e : Edge} (he : Signs.Evaluable vars e.action)
    (hkind : ∀ s, e.action.kind ≠ .unknown s) :
    transferSigns vars m e = m.transfer vars e := by
  unfold transferSigns Signs.transfer
  split
  · rfl
  · rename_i hreach
    have hr : m.unreachable = false := by simpa using hreach
    cases hk : e.action.kind with
    | assign =>
      obtain ⟨t, i, htarget, -⟩ := he.target (.inl hk)
      simp only [htarget, eval_eq hm (he.value hk), store_eq hm]
    | read =>
      obtain ⟨t, i, htarget, -⟩ := he.target (.inr hk)
      simp only [htarget, store_eq hm]
    | boolean => exact narrow_eq hm hr (he.guard hk) false
    | write | declare => rfl
    | unknown s => exact absurd hk (hkind s)

end Signs

/-! ## Definitions and live variables -/

/-- What an edge does to the definitions; there are as many sites as edges, and one more. -/
def transferDefinitions (vars : Variables) (edges : Nat) (m : Definitions) (e : Edge) :
    Except Fault Definitions :=
  match e.action.defines with
  | none => .ok m
  | some target =>
    match vars.of target with
    | none => .error (.undeclaredTarget target)
    | some i => do
      let site ← bit (edges + 1) (← Definitions.siteOf e.id)
      change m i fun s => BitSet.insert site (if target.kind = .scalar then .empty else s)

/-- The position of a variable, as a bit of a set of variables. -/
def variableBit (vars : Variables) (a : Access) : Except Fault Nat := do
  bit vars.length (← LiveSet.indexOf vars a)

/-- The variables that stay live across the definition that an action makes. -/
def killLive (vars : Variables) (target : Option Access) (m : LiveSet) : Except Fault LiveSet :=
  match target with
  | some (.scalar x) => do return BitSet.erase (← variableBit vars (.scalar x)) m
  | _ => .ok m

/-- What an edge does to the live variables. -/
def transferLive (vars : Variables) (m : LiveSet) (e : Edge) : Except Fault LiveSet := do
  let kept ← killLive vars e.action.defines m
  e.action.uses.foldlM (fun s use => do return BitSet.insert (← variableBit vars use) s) kept

/-- Strict transfer of definitions stays within the sites. -/
theorem transferDefinitions_eq {vars : Variables} {edges site : Nat} {m : Definitions} {e : Edge}
    (hm : m.length = vars.length) (hid : e.id = (site : Int)) (hsite : site < edges) :
    transferDefinitions vars edges m e = Definitions.transfer vars m e := by
  have hbit : bit (edges + 1) (site + 1) = .ok (site + 1) := bit_eq_ok (by omega)
  unfold transferDefinitions Definitions.transfer
  cases e.action.defines with
  | none => rfl
  | some target =>
    cases hi : vars.of target with
    | none => simp only [hi]
    | some i =>
      have hlt : i < m.length := hm.symm ▸ Variables.lt_of_of_eq_some hi
      simp only [hi, hid, Definitions.siteOf_natCast, hbit, change_eq_ok hlt, bind, Except.bind]
      rfl

theorem variableBit_eq (vars : Variables) (a : Access) :
    variableBit vars a = LiveSet.indexOf vars a := by
  unfold variableBit LiveSet.indexOf
  cases hi : vars.of a with
  | none => rfl
  | some i => exact bit_eq_ok (Variables.lt_of_of_eq_some hi)

theorem killLive_eq (vars : Variables) (target : Option Access) (m : LiveSet) :
    killLive vars target m = LiveSet.kill vars target m := by
  unfold killLive LiveSet.kill
  cases target with
  | none => rfl
  | some a =>
    cases a with
    | scalar x => simp only [variableBit_eq]
    | element | field | odd => rfl

/-- Strict transfer of live variables stays within the variables. -/
theorem transferLive_eq (vars : Variables) (m : LiveSet) (e : Edge) :
    transferLive vars m e = LiveSet.transfer vars m e := by
  simp only [transferLive, LiveSet.transfer, killLive_eq, variableBit_eq]

/-! ## Analyses -/

/-- The operations of an analysis, each of which can break off. -/
structure Operations (M : Type) where
  transfer : M → Edge → Except Fault M
  merge : M → M → Except Fault M
  included : M → M → Except Fault Bool

def signs (g : Graph) : Operations Signs where
  transfer := transferSigns g.vars
  merge := mergeSigns
  included := includedSigns

def definitions (g : Graph) : Operations Definitions where
  transfer := transferDefinitions g.vars g.edges.size
  merge := combine BitSet.union
  included := fun m n => do return (← combine BitSet.subset m n).all id

/-- The strict operations on sets of variables. -/
def live (g : Graph) : Operations LiveSet where
  transfer := transferLive g.vars
  merge := fun m n => .ok (m.union n)
  included := fun m n => .ok (m.subset n)

namespace Operations

variable {M : Type} (o : Operations M)

/-- The value behind an edge. -/
def apply (x : Option M) (e : Edge) : Except Fault (Option M) :=
  match x with
  | none => .ok none
  | some m => do return some (← o.transfer m e)

/-- The order of values. -/
def leq : Option M → Option M → Except Fault Bool
  | none, _ => .ok true
  | some _, none => .ok false
  | some m, some n => o.included m n

/-- Joins two values. -/
def join : Option M → Option M → Except Fault (Option M)
  | none, y => .ok y
  | some m, none => .ok (some m)
  | some m, some n => do return some (← o.merge m n)

/-- Evaluates an edge, as `Analysis.update` does. -/
def update (a : Analysis M) (g : Graph) (values : Values M) (e : Edge) :
    Except Fault (Option (Nat × Values M)) := do
  let origin ← g.endNode (a.origin e)
  let goal ← g.endNode (a.goal e)
  let (_, x) ← Analysis.valueAt values origin.id
  let v ← o.apply x e
  let (i, y) ← Analysis.valueAt values goal.id
  if ← o.leq v y then return none
  else return some (i, values.setIfInBounds (← bit values.size i) (← o.join y v))

/-- On mappings that can come up, strict operations do what those of an analysis do. -/
structure Agree {a : Analysis M} {g : Graph} (D : a.Domain g) : Prop where
  transfer : ∀ {e : Edge} {m : M}, e ∈ g.edges → D.Proper m → o.transfer m e = a.transfer m e
  merge : ∀ {m n : M}, D.Proper m → D.Proper n → o.merge m n = .ok (a.merge m n)
  included : ∀ {m n : M}, D.Proper m → D.Proper n → o.included m n = .ok (a.included m n)

variable {o} {a : Analysis M} {g : Graph} {D : a.Domain g} {x y : Option M}

/-- On proper values the strict operations are those of the analysis. -/
theorem Agree.apply (h : o.Agree D) {e : Edge} (he : e ∈ g.edges) (hx : D.ProperValue x) :
    o.apply x e = a.apply x e := by
  cases x with
  | none => rfl
  | some m => simp only [Operations.apply, Analysis.apply, h.transfer he (hx m rfl)]

theorem Agree.leq (h : o.Agree D) (hx : D.ProperValue x) (hy : D.ProperValue y) :
    o.leq x y = .ok (a.leq x y) := by
  cases x with
  | none => cases y <;> rfl
  | some m =>
    cases y with
    | none => rfl
    | some n => exact h.included (hx m rfl) (hy n rfl)

theorem Agree.join (h : o.Agree D) (hx : D.ProperValue x) (hy : D.ProperValue y) :
    o.join x y = .ok (a.join x y) := by
  cases x with
  | none => rfl
  | some m =>
    cases y with
    | none => rfl
    | some n =>
      rw [Operations.join, h.merge (hx m rfl) (hy n rfl)]
      rfl

/-- Evaluating an edge succeeds with strict operations, and gives what it gives without. -/
theorem Agree.update (h : o.Agree D) (hg : g.Coherent) {V : Values M} (hV : D.Approximates V)
    {e : Edge} (he : e ∈ g.edges) :
    ∃ r, o.update a g V e = .ok r ∧ a.update g V e = .ok r := by
  obtain ⟨p, q, hp, hq, ho, hgoal⟩ := Analysis.flow_listed (a := a) hg he
  obtain ⟨v, hv, -⟩ := Analysis.Domain.exists_apply he (hV.proper p).shaped
  have hproper : D.ProperValue v := (hV.proper p).apply he hv
  refine ⟨_, ?_, Analysis.update_eq hg hV.size hp hq ho hgoal hv⟩
  obtain ⟨n, hn, -, hnid⟩ := hg.endNode hp
  obtain ⟨m, hm, -, hmid⟩ := hg.endNode hq
  have hvp : Analysis.valueAt V (p : Int) = .ok (p, V.value p) :=
    Analysis.valueAt_eq_ok (hV.size ▸ hp)
  have hvq : Analysis.valueAt V (q : Int) = .ok (q, V.value q) :=
    Analysis.valueAt_eq_ok (hV.size ▸ hq)
  have hbit : bit V.size q = .ok q := bit_eq_ok (hV.size ▸ hq)
  rw [← h.apply he (hV.proper p)] at hv
  simp only [Operations.update, ho, hgoal, hn, hm, hnid, hmid, hvp, hvq, hv, hbit,
    h.leq hproper (hV.proper q), h.join (hV.proper q) hproper, bind, Except.bind]
  split <;> rfl

end Operations

theorem kind_of_validate {a : Action} (h : a.validate = .ok ()) (s : String) :
    a.kind ≠ .unknown s := by
  intro hk
  simp [Action.validate, hk] at h

/-- Nothing in the analysis of signs relies on defaults. -/
theorem signs_agree {g : Graph} (hg : g.Coherent) (ht : g.WellTyped) :
    (signs g).Agree (signDetectionDomain hg ht) where
  transfer he hm := transferSigns_eq hm.shaped (Signs.evaluable_of_valid hg.valid ht he)
    (kind_of_validate (hg.valid.action _ he))
  merge hm hn := mergeSigns_eq hm.shaped hn.shaped
  included hm hn := includedSigns_eq hm.shaped hn.shaped

/-- Nor in that of reaching definitions. -/
theorem definitions_agree {g : Graph} (hg : g.Coherent) :
    (definitions g).Agree (reachingDefinitionsDomain hg) where
  transfer he hm := by
    obtain ⟨site, hsite, -, hid⟩ := hg.edge_id he
    exact transferDefinitions_eq hm.1 hid hsite
  merge hm hn := combine_eq_ok (hm.1.trans hn.1.symm)
  included {m n} hm hn := by
    have hlen : m.length = n.length := hm.1.trans hn.1.symm
    simp only [definitions, combine_eq_ok hlen]
    rfl

/-- Nor in that of live variables. -/
theorem live_agree {g : Graph} (hg : g.Coherent) : (live g).Agree (liveVariablesDomain hg) where
  transfer _ _ := transferLive_eq _ _ _
  merge _ _ := rfl
  included _ _ := rfl

end Strict

end MicroFlow
