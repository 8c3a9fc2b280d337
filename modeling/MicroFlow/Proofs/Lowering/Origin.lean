import Mathlib.Data.List.Nodup
import MicroFlow.Proofs.Lowering.Parts

/-!
# Where an edge comes from

A statement stands at an *address*: it is an item of the program, or it has a place in a block
of another statement.  An edge has an *origin*: the address of the statement that it was laid
out for, and for a guard whether it is the condition or its negation.  A guard belongs to the
branch or loop itself, not to the block behind it.

`programOrigins` lists the origins of a program in the order of its edges.
-/

namespace MicroFlow.Source

/-! ## Addresses -/

/-- Where a statement stands. -/
inductive Address where
  /-- An item of the program. -/
  | item (i : Nat)
  /-- A place in the block of another statement; `branch` is false for the block behind `else`. -/
  | inner (outer : Address) (branch : Bool) (n : Nat)
deriving DecidableEq, Repr

/-- What an edge comes from. -/
structure Origin where
  stmt : Address
  /-- For a guard, whether the condition holds. -/
  guard : Option Bool := none
deriving DecidableEq, Repr

variable {α : Address} {branch : Bool} {n : Nat} {p : Program}

namespace Address

/-- The guard that enters the innermost block around a statement, if there is one. -/
def entrance : Address → Option Origin
  | item _ => none
  | inner outer branch _ => some ⟨outer, some branch⟩

/-- The number of blocks around a statement. -/
def depth : Address → Nat
  | item _ => 0
  | inner outer _ _ => outer.depth + 1

/-- The second address is the first one, or stands in a block of it. -/
def Around (α : Address) : Address → Prop
  | item i => α = item i
  | inner outer branch n => α = inner outer branch n ∨ α.Around outer

theorem Around.refl (α : Address) : α.Around α := by
  cases α with
  | item i => rfl
  | inner outer branch n => exact .inl rfl

variable {β : Address}

theorem Around.depth_le (h : α.Around β) : α.depth ≤ β.depth := by
  induction β with
  | item i => exact Nat.le_of_eq (congrArg depth h)
  | inner outer branch n ih =>
    rcases h with rfl | h
    · exact Nat.le_refl _
    · exact Nat.le_succ_of_le (ih h)

/-- What is around an inner address is around the outer one. -/
theorem Around.of_inner (h : (inner α branch n).Around β) : α.Around β := by
  induction β with
  | item i => cases h
  | inner outer branch' n' ih =>
    rcases h with heq | h
    · cases heq
      exact .inr (.refl α)
    · exact .inr (ih h)

/-- At every depth there is one address around. -/
theorem Around.unique {γ : Address} (hα : α.Around γ) (hβ : β.Around γ)
    (hdepth : α.depth = β.depth) : α = β := by
  induction γ with
  | item i => exact Eq.trans hα (Eq.symm hβ)
  | inner outer branch n ih =>
    rcases hα with rfl | hα
    · rcases hβ with rfl | hβ
      · rfl
      · have := hβ.depth_le
        simp only [depth] at hdepth
        omega
    · rcases hβ with rfl | hβ
      · have := hα.depth_le
        simp only [depth] at hdepth
        omega
      · exact ih hα hβ

/-- Nothing is inside of itself. -/
theorem not_around_outer : ¬ (inner α branch n).Around α := by
  intro h
  have hle := h.depth_le
  simp only [depth] at hle
  omega

end Address

/-! ## Origins -/

mutual

/-- The origins of the arrows of a statement, in order. -/
def Stmt.origins (α : Address) : Stmt → List Origin
  | .missing => []
  | .assign _ _ _ => [⟨α, none⟩]
  | .read _ _ => [⟨α, none⟩]
  | .write _ _ => [⟨α, none⟩]
  | .ifThen _ _ body => ⟨α, some true⟩ :: body.origins α true 0 ++ [⟨α, some false⟩]
  | .ifElse _ _ body other =>
    ⟨α, some true⟩ :: ⟨α, some false⟩ :: (body.origins α true 0 ++ other.origins α false 0)
  | .loop _ _ body => ⟨α, some true⟩ :: body.origins α true 0 ++ [⟨α, some false⟩]

/-- The origins of the arrows of a block whose first statement has the place `n`. -/
def Block.origins (outer : Address) (branch : Bool) (n : Nat) : Block → List Origin
  | .nil => []
  | .cons s b => s.origins (.inner outer branch n) ++ b.origins outer branch (n + 1)

end

/-- The origins of the arrows of an item. -/
def Item.origins (i : Nat) : Item → List Origin
  | .declare _ _ _ _ => [⟨.item i, none⟩]
  | .stmt s => s.origins (.item i)
  | _ => []

/-- The origins of the edges of a program whose first item has the place `i`, in order. -/
def programOrigins (i : Nat) : Program → List Origin
  | [] => []
  | item :: rest => item.origins i ++ programOrigins (i + 1) rest

/-! ## No origin twice -/

mutual

/-- The origins in a statement are inside of it. -/
theorem Stmt.around_origins {α : Address} {o : Origin} :
    ∀ {s : Stmt}, o ∈ s.origins α → α.Around o.stmt
  | .missing, h => by cases h
  | .assign _ _ _, h | .read _ _, h | .write _ _, h => by
    rw [List.mem_singleton.mp h]
    exact .refl α
  | .ifThen _ _ body, h | .loop _ _ body, h => by
    rw [Stmt.origins, mem_enclosed] at h
    rcases h with rfl | h | rfl
    · exact .refl α
    · obtain ⟨k, -, hk⟩ := Block.around_origins h
      exact hk.of_inner
    · exact .refl α
  | .ifElse _ _ body other, h => by
    simp only [Stmt.origins, List.mem_cons, List.mem_append] at h
    rcases h with rfl | rfl | h | h
    · exact .refl α
    · exact .refl α
    · obtain ⟨k, -, hk⟩ := Block.around_origins h
      exact hk.of_inner
    · obtain ⟨k, -, hk⟩ := Block.around_origins h
      exact hk.of_inner

theorem Block.around_origins {outer : Address} {branch : Bool} {n : Nat} {o : Origin} :
    ∀ {b : Block}, o ∈ b.origins outer branch n →
      ∃ k, n ≤ k ∧ (Address.inner outer branch k).Around o.stmt
  | .nil, h => by cases h
  | .cons s b, h => by
    rcases List.mem_append.mp h with h | h
    · exact ⟨n, Nat.le_refl n, Stmt.around_origins h⟩
    · obtain ⟨k, hk, haround⟩ := Block.around_origins h
      exact ⟨k, by omega, haround⟩

end

/-- A body does not have the guards of its statement. -/
theorem Block.guard_notMem_origins {g : Option Bool}
    {b : Block} : (⟨α, g⟩ : Origin) ∉ b.origins α branch n := by
  intro h
  obtain ⟨k, -, hk⟩ := Block.around_origins h
  exact Address.not_around_outer hk

/-- The two bodies of a statement share no origin. -/
theorem Block.disjoint_origins {m : Nat} {b c : Block} :
    (b.origins α true n).Disjoint (c.origins α false m) := by
  intro o hb hc
  obtain ⟨k, -, hk⟩ := Block.around_origins hb
  obtain ⟨l, -, hl⟩ := Block.around_origins hc
  cases hk.unique hl rfl

theorem nodup_guards {os : List Origin} (h : os.Nodup) (hguards : ∀ g, (⟨α, g⟩ : Origin) ∉ os) :
    ((⟨α, some true⟩ : Origin) :: os ++ [(⟨α, some false⟩ : Origin)]).Nodup := by
  rw [List.cons_append, List.nodup_cons, List.nodup_append']
  refine ⟨by simp [hguards], h, List.nodup_singleton _, ?_⟩
  intro o ho hlast
  rw [List.mem_singleton.mp hlast] at ho
  exact hguards _ ho

mutual

/-- No origin stands twice in a statement. -/
theorem Stmt.nodup_origins (α : Address) : ∀ s : Stmt, (s.origins α).Nodup
  | .missing => .nil
  | .assign _ _ _ => List.nodup_singleton _
  | .read _ _ => List.nodup_singleton _
  | .write _ _ => List.nodup_singleton _
  | .ifThen _ _ body | .loop _ _ body =>
    nodup_guards (Block.nodup_origins α true 0 body) fun _ => Block.guard_notMem_origins
  | .ifElse _ _ body other => by
    have hbody := Block.nodup_origins α true 0 body
    have hother := Block.nodup_origins α false 0 other
    simp [Stmt.origins, List.nodup_append', hbody, hother, Block.guard_notMem_origins,
      Block.disjoint_origins]

theorem Block.nodup_origins (outer : Address) (branch : Bool) (n : Nat) :
    ∀ b : Block, (b.origins outer branch n).Nodup
  | .nil => .nil
  | .cons s b => by
    refine List.nodup_append'.mpr ⟨Stmt.nodup_origins _ s, Block.nodup_origins _ _ _ b, ?_⟩
    intro o hs hb
    obtain ⟨k, hk, haround⟩ := Block.around_origins hb
    have heq := (Stmt.around_origins hs).unique haround rfl
    cases heq
    omega

end

theorem Item.around_origins {i : Nat} {o : Origin} {item : Item} (h : o ∈ item.origins i) :
    (Address.item i).Around o.stmt := by
  cases item with
  | declare =>
    rw [List.mem_singleton.mp h]
    exact .refl _
  | stmt s => exact Stmt.around_origins h
  | expression | missing => cases h

theorem Item.nodup_origins (i : Nat) (item : Item) : (item.origins i).Nodup := by
  cases item with
  | declare => exact List.nodup_singleton _
  | stmt s => exact Stmt.nodup_origins _ s
  | expression | missing => exact .nil

/-- The origins of a program are inside of its items. -/
theorem around_programOrigins : ∀ {i : Nat} {o : Origin}, o ∈ programOrigins i p →
    ∃ k, i ≤ k ∧ (Address.item k).Around o.stmt := by
  induction p with
  | nil =>
    intro i o h
    cases h
  | cons item rest ih =>
    intro i o h
    rcases List.mem_append.mp h with h | h
    · exact ⟨i, Nat.le_refl i, Item.around_origins h⟩
    · obtain ⟨k, hk, haround⟩ := ih h
      exact ⟨k, by omega, haround⟩

/-- No two edges have the same origin. -/
theorem nodup_programOrigins (p : Program) : ∀ i : Nat, (programOrigins i p).Nodup := by
  induction p with
  | nil =>
    intro i
    exact .nil
  | cons item rest ih =>
    intro i
    refine List.nodup_append'.mpr ⟨Item.nodup_origins i item, ih (i + 1), ?_⟩
    intro o hitem hrest
    obtain ⟨k, hk, haround⟩ := around_programOrigins hrest
    have heq := (Item.around_origins hitem).unique haround rfl
    cases heq
    omega

/-! ## What the program does at an origin -/

/-- The block of a statement behind the condition, or behind its negation. -/
def Stmt.block? : Stmt → Bool → Option Block
  | .ifThen _ _ body, true => some body
  | .ifElse _ _ body _, true => some body
  | .ifElse _ _ _ other, false => some other
  | .loop _ _ body, true => some body
  | _, _ => none

/-- What a statement does by itself, or with one of its guards. -/
def Stmt.part? : Stmt → Option Bool → Option Part
  | .assign _ target value, none => some (.assign target value)
  | .read _ target, none => some (.read target)
  | .write _ value, none => some (.write value)
  | .ifThen _ cond _, some holds => some (.guard cond holds)
  | .ifElse _ cond _ _, some holds => some (.guard cond holds)
  | .loop _ cond _, some holds => some (.guard cond holds)
  | _, _ => none

/-- The statement at an address of a program. -/
def stmtAt? (p : Program) : Address → Option Stmt
  | .item i =>
    match p[i]? with
    | some (.stmt s) => some s
    | _ => none
  | .inner outer branch n => do
    let s ← stmtAt? p outer
    let b ← s.block? branch
    b.toList[n]?

/-- What stands at an origin. -/
def partAt? (p : Program) (o : Origin) : Option Part := do
  let s ← stmtAt? p o.stmt
  s.part? o.guard

/-- The variable that is declared at an origin. -/
def declaredAt? (p : Program) : Origin → Option Declaration
  | ⟨.item i, none⟩ =>
    match p[i]? with
    | some (.declare _ shape name length) => some (declarationOf shape name length)
    | _ => none
  | _ => none

/-- The action at an origin of a program: what a statement does there, or a declaration. -/
def actionAt? (p : Program) (o : Origin) : Option Action :=
  ((partAt? p o).map Part.action).or ((declaredAt? p o).map .declare)

mutual

/-- The parts at the origins of a statement are its parts. -/
theorem Stmt.map_partAt? {p : Program} : ∀ {s : Stmt} {α : Address}, stmtAt? p α = some s →
    (s.origins α).map (partAt? p) = s.parts.map some
  | .missing, _, _ => rfl
  | .assign _ _ _, α, h
  | .read _ _, α, h
  | .write _ _, α, h => by simp [Stmt.origins, Stmt.parts, partAt?, h, Stmt.part?]
  | .ifThen _ cond body, α, h | .loop _ cond body, α, h => by
    have hbody := Block.map_partAt? true h rfl body 0 rfl
    simp [Stmt.origins, Stmt.parts, hbody, partAt?, h, Stmt.part?]
  | .ifElse _ cond body other, α, h => by
    have hbody := Block.map_partAt? true h rfl body 0 rfl
    have hother := Block.map_partAt? false h rfl other 0 rfl
    simp [Stmt.origins, Stmt.parts, hbody, hother, partAt?, h, Stmt.part?]

/-- At the origins of the rest of a block stand its parts. -/
theorem Block.map_partAt? {p : Program} {outer : Address} {t : Stmt} (branch : Bool) {c : Block}
    (ht : stmtAt? p outer = some t) (hc : t.block? branch = some c) :
    ∀ (b : Block) (n : Nat), c.toList.drop n = b.toList →
      (b.origins outer branch n).map (partAt? p) = b.parts.map some
  | .nil, _, _ => rfl
  | .cons s b, n, hdrop => by
    have hget : c.toList[n]? = some s := by
      have := congrArg (·[0]?) hdrop
      simpa [Block.toList] using this
    have hat : stmtAt? p (.inner outer branch n) = some s := by simp [stmtAt?, ht, hc, hget]
    have hdrop' : c.toList.drop (n + 1) = b.toList := by
      rw [← List.drop_drop, hdrop]
      rfl
    have hs := Stmt.map_partAt? hat
    have hb := Block.map_partAt? branch ht hc b (n + 1) hdrop'
    rw [Block.origins, Block.parts, List.map_append, List.map_append, hs, hb]

end

/-- And their actions are done there. -/
theorem Stmt.map_actionAt? {s : Stmt} (h : stmtAt? p α = some s) :
    (s.origins α).map (actionAt? p) = s.parts.map fun part => some part.action := by
  have hparts := Stmt.map_partAt? h
  have hsome : ∀ o ∈ s.origins α, actionAt? p o = (partAt? p o).map Part.action := by
    intro o ho
    have hmem : partAt? p o ∈ s.parts.map some := hparts ▸ List.mem_map_of_mem ho
    obtain ⟨part, -, hpart⟩ := List.mem_map.mp hmem
    rw [actionAt?, ← hpart]
    rfl
  calc (s.origins α).map (actionAt? p)
      = ((s.origins α).map (partAt? p)).map (Option.map Part.action) := by
        rw [List.map_map]
        exact List.map_congr_left hsome
    _ = s.parts.map fun part => some part.action := by
        rw [hparts, List.map_map]
        rfl

/-- The action on an edge is what the program does at its origin. -/
theorem map_actionAt? : ∀ {rest : Program} {i : Nat} (source next : Nat),
    p.drop i = rest → (programOrigins i rest).map (actionAt? p) =
      (lowerProgram source next rest).arrows.map fun a => some a.action := by
  intro rest
  induction rest with
  | nil =>
    intro i source next _
    rfl
  | cons item rest ih =>
    intro i source next hdrop
    have hget : p[i]? = some item := by
      have := congrArg (·[0]?) hdrop
      simpa using this
    have hdrop' : p.drop (i + 1) = rest := by
      rw [← List.drop_drop, hdrop]
      rfl
    -- the item alone; the rest starts at the next address
    have hitem : (item.origins i).map (actionAt? p) =
        (item.lower source next).arrows.map fun a => some a.action := by
      cases item with
      | declare pos shape name length =>
        simp [Item.origins, Item.lower, single_arrows, actionAt?, partAt?, stmtAt?, declaredAt?,
          hget]
      | stmt s =>
        have hat : stmtAt? p (.item i) = some s := by simp [stmtAt?, hget]
        have hactions := Stmt.actions_lower s source none next
        rw [Item.origins, Item.lower, Stmt.map_actionAt? hat]
        have hmap := congrArg (List.map some) hactions
        rw [List.map_map, List.map_map] at hmap
        exact hmap.symm
      | expression | missing => rfl
    have hrest := ih (item.lower source next).finish (item.lower source next).next hdrop'
    rw [programOrigins, lowerProgram, List.map_append, List.map_append, hitem, hrest]

end MicroFlow.Source
