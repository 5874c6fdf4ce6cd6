import CallLowering.Proofs.SideBySide
import Mathlib.Logic.Function.Basic

/-!
Twins: two procedures that differ only in the locals that lowering made, and in the late orders of calls. A
local of the first has a counterpart in the second.
-/

namespace CallLowering

open List

variable {var : LocalId} {id : NodeId} {kind other : NodeKind} {α : Type}

namespace NodeKind

def accesses? (kind : NodeKind) : Option LocalId := kind.readsLocal?.or kind.storesLocal?

-- The same kind with other locals. Whose address is taken makes no difference.
inductive Mirrors (rename : LocalId → LocalId) : NodeKind → NodeKind → Prop
  | readLocal (var : LocalId) : Mirrors rename (.readLocal var) (.readLocal (rename var))
  | readField (var : LocalId) (offset : Nat) :
    Mirrors rename (.readField var offset) (.readField (rename var) offset)
  | storeLocal (var : LocalId) (value : NodeId) :
    Mirrors rename (.storeLocal var value) (.storeLocal (rename var) value)
  | localAddr (var other : LocalId) : Mirrors rename (.localAddr var) (.localAddr other)
  | same (kind : NodeKind) (plain : kind.accesses? = none) : Mirrors rename kind kind

namespace Mirrors

variable {rename : LocalId → LocalId} {kind other : NodeKind}

section Mirrors

variable (mirrors : kind.Mirrors rename other)

include mirrors

theorem children : other.children = kind.children := by
  cases mirrors <;> rfl

theorem call : other.call? = kind.call? := by
  cases mirrors <;> rfl

theorem isIntConst : other.isIntConst = kind.isIntConst := by
  cases mirrors <;> rfl

theorem isStackAlloc : other.isStackAlloc = kind.isStackAlloc := by
  cases mirrors <;> rfl

theorem isSafeDivisor : Procedure.isSafeDivisor other = Procedure.isSafeDivisor kind := by
  cases mirrors <;> rfl

theorem readsLocal : other.readsLocal? = kind.readsLocal?.map rename := by
  cases mirrors with
  | same _ plain =>
    rw [(Option.or_eq_none_iff.mp plain).1]
    rfl
  | _ => rfl

theorem storesLocal : other.storesLocal? = kind.storesLocal?.map rename := by
  cases mirrors with
  | same _ plain =>
    rw [(Option.or_eq_none_iff.mp plain).2]
    rfl
  | _ => rfl

theorem isLocalRead : other.isLocalRead = kind.isLocalRead := by
  rw [NodeKind.isLocalRead, mirrors.readsLocal, Option.isSome_map]
  rfl

end Mirrors

theorem congr {rename' : LocalId → LocalId} (mirrors : kind.Mirrors rename other)
    (agree : ∀ var, kind.accesses? = some var → rename' var = rename var) : kind.Mirrors rename' other := by
  cases mirrors with
  | readLocal var => exact agree var rfl ▸ .readLocal var
  | readField var offset => exact agree var rfl ▸ .readField var offset
  | storeLocal var value => exact agree var rfl ▸ .storeLocal var value
  | localAddr var other => exact .localAddr var other
  | same _ plain => exact .same _ plain

end Mirrors

end NodeKind

def Argument.masked (arg : Argument) : Argument := { arg with temp := arg.temp.map fun _ => 0 }

theorem Argument.masked_read {arg other : Argument} (same : other.masked = arg.masked)
    (f : Argument → α) (blind : ∀ arg, f arg.masked = f arg) : f other = f arg := by
  rw [← blind other, same, blind]

structure ArgList.Twins (list other : ArgList) : Prop where
  args : other.args.map Argument.masked = list.args.map Argument.masked
  order : other.lateOrder.Perm list.lateOrder
  stage : other.stage = list.stage
  hasRegArgs : other.hasRegArgs = list.hasRegArgs
  hasStackArgs : other.hasStackArgs = list.hasStackArgs
  stackSize : other.stackSize = list.stackSize

structure Call.Twins (data other : Call) : Prop where
  rest : other = { data with args := other.args }
  list : data.args.Twins other.args

namespace ArgList.Twins

variable {list other : ArgList}

theorem refl : list.Twins list := ⟨rfl, .refl _, rfl, rfl, rfl, rfl⟩

theorem map (twins : list.Twins other) (f : Argument → α) (blind : ∀ arg, f arg.masked = f arg) :
    other.args.map f = list.args.map f := by
  have through : ∀ args : List Argument, args.map f = (args.map Argument.masked).map f := by
    intro args
    rw [map_map]
    exact map_congr_left fun arg _ => (blind arg).symm
  rw [through, twins.args, ← through]

theorem filterMap (twins : list.Twins other) (f : Argument → Option α)
    (blind : ∀ arg, f arg.masked = f arg) : other.args.filterMap f = list.args.filterMap f := by
  have through : ∀ args : List Argument, args.filterMap f = (args.map f).filterMap id := by
    intro args
    rw [filterMap_map]
    rfl
  rw [through, twins.map f blind, ← through]

variable (twins : list.Twins other)

include twins

theorem size : other.size = list.size := by
  simpa [ArgList.size] using congrArg List.length twins.args

theorem at_ (index : Nat) : other.args[index]?.map Argument.masked = list.args[index]?.map Argument.masked := by
  simpa using congrArg (fun args : List Argument => args[index]?) twins.args

theorem arg {index : Nat} {arg : Argument} (here : list.args[index]? = some arg) :
    ∃ arg', other.args[index]? = some arg' ∧ arg'.masked = arg.masked := by
  have both := twins.at_ index
  rw [here] at both
  exact Option.map_eq_some_iff.mp both

theorem findRole (role : ArgRole) : other.findRole role = list.findRole role := by
  have found : ∀ args : List Argument, args.findIdx? (fun arg => arg.role == role)
      = (args.map Argument.role).findIdx? fun own => own == role := by
    intro args
    rw [findIdx?_map]
    rfl
  rw [ArgList.findRole, ArgList.findRole, found, found, twins.map Argument.role fun _ => rfl]

theorem modify (index : Nat) {step step' : Argument → Argument}
    (same : ∀ arg arg', arg'.masked = arg.masked → (step' arg').masked = (step arg).masked) :
    (list.modifyArg index step).Twins (other.modifyArg index step') where
  args := by
    apply ext_getElem?
    intro i
    have both := twins.at_ i
    simp only [ArgList.modifyArg, getElem?_map, getElem?_modify]
    by_cases here : index = i
    · simp only [if_pos here]
      cases left : list.args[i]? with
      | none =>
        rw [left] at both
        rw [Option.map_eq_none_iff.mp both]
        rfl
      | some arg =>
        obtain ⟨arg', right, masked⟩ := twins.arg left
        rw [right]
        exact congrArg some (same arg arg' masked)
    · simpa [here] using both
  order := twins.order
  stage := twins.stage
  hasRegArgs := twins.hasRegArgs
  hasStackArgs := twins.hasStackArgs
  stackSize := twins.stackSize

end ArgList.Twins

theorem Call.Twins.refl (data : Call) : data.Twins data := ⟨rfl, .refl⟩

theorem Call.Twins.references {data other : Call} (twins : data.Twins other) :
    other.references = data.references := by
  have nodes := twins.list.map (fun arg => arg.early.toList ++ arg.late.toList) fun _ => rfl
  have target : other.target = data.target := by rw [twins.rest]
  rw [Call.references, Call.references, flatMap_def, flatMap_def, nodes, target]

-- What there was before lowering, and before the outermost call that is being lowered.
structure Era where
  nodes : Nat
  locals : Nat
  madeNodes : Nat
  madeLocals : Nat

namespace Era

-- A node that the tree of the outermost call may contain.
def Live (era : Era) (id : NodeId) : Prop := id < era.nodes ∨ era.madeNodes ≤ id

-- A local that the tree of the outermost call may access.
def Own (era : Era) (var : LocalId) : Prop := var < era.locals ∨ era.madeLocals ≤ var

end Era

-- The era together with the copies that the pool of the first run holds and those that are free in
-- the pool of the second.
structure Frame extends Era where
  held : List LocalId
  free : List LocalId

-- The locals of two procedures. What the pools contain are copies, and no local of the outermost call
-- has a free one for its counterpart.
structure Renames (frame : Frame) (rename : LocalId → LocalId)
    (vars others : Array LocalVar) : Prop where
  kept : ∀ (var : LocalId) (data : LocalVar), vars[var]? = some data → others[rename var]? = some data
  user : ∀ var < frame.locals, rename var = var
  made : ∀ var < vars.size, frame.locals ≤ var → frame.locals ≤ rename var
  apart : ∀ a b, frame.madeLocals ≤ a → a < vars.size → frame.madeLocals ≤ b → b < vars.size →
    rename a = rename b → a = b
  held : ∀ var ∈ frame.held, frame.locals ≤ var ∧ ∃ ty, vars[var]? = some { ty, kind := .structCopy }
  free : ∀ var ∈ frame.free, frame.locals ≤ var ∧ (∃ ty, others[var]? = some { ty, kind := .structCopy })
    ∧ ∀ a, frame.madeLocals ≤ a → a < vars.size → rename a ≠ var
  ordered : frame.locals ≤ frame.madeLocals
  within : frame.madeLocals ≤ vars.size

namespace Renames

variable {frame : Frame} {rename : LocalId → LocalId} {vars others : Array LocalVar}

variable (renames : Renames frame rename vars others)

include renames

theorem injective {a b : LocalId} (ownA : frame.Own a) (insideA : a < vars.size) (ownB : frame.Own b)
    (insideB : b < vars.size) (same : rename a = rename b) : a = b := by
  rcases ownA with userA | madeA
  · rw [renames.user a userA] at same
    rcases ownB with userB | madeB
    · rw [renames.user b userB] at same
      exact same
    · have isMade := renames.made b insideB (renames.ordered.trans madeB)
      exact absurd (same ▸ userA) (Nat.not_lt.mpr isMade)
  · rcases ownB with userB | madeB
    · rw [renames.user b userB] at same
      have isMade := renames.made a insideA (renames.ordered.trans madeA)
      exact absurd (same ▸ userB) (Nat.not_lt.mpr isMade)
    · exact renames.apart a b madeA insideA madeB insideB same

theorem push {data : LocalVar} {target : LocalId} {others' : Array LocalVar}
    (isTarget : others'[target]? = some data)
    (grown : ∀ (var : LocalId) (data : LocalVar), others[var]? = some data → others'[var]? = some data)
    (isMade : frame.locals ≤ target) (unused : ∀ a, frame.madeLocals ≤ a → a < vars.size → rename a ≠ target)
    (isTaken : target ∉ frame.free) :
    Renames frame (Function.update rename vars.size target) (vars.push data) others' := by
  have old : ∀ var < vars.size, Function.update rename vars.size target var = rename var :=
    fun var bound => Function.update_of_ne (Nat.ne_of_lt bound) _ _
  have new : Function.update rename vars.size target vars.size = target := Function.update_self _ _ _
  have size : (vars.push data).size = vars.size + 1 := Array.size_push _
  have cases : ∀ var < (vars.push data).size, var < vars.size ∨ var = vars.size := by
    intro var bound
    omega
  refine ⟨?_, ?_, ?_, ?_, ?_, ?_, renames.ordered, by have := renames.within; omega⟩
  · intro var known here
    rw [Array.getElem?_push] at here
    split at here
    · rename_i isLast
      rw [isLast, new, isTarget, here]
    · rw [old var (lt_size here)]
      exact grown _ _ (renames.kept var known here)
  · intro var isUser
    rw [old var (by have := renames.ordered; have := renames.within; omega)]
    exact renames.user var isUser
  · intro var bound isOld
    rcases cases var bound with mem | rfl
    · rw [old var mem]
      exact renames.made var mem isOld
    · rw [new]
      exact isMade
  · intro a b madeA boundA madeB boundB same
    rcases cases a boundA with insideA | rfl
    · rw [old a insideA] at same
      rcases cases b boundB with insideB | rfl
      · rw [old b insideB] at same
        exact renames.apart a b madeA insideA madeB insideB same
      · rw [new] at same
        exact absurd same (unused a madeA insideA)
    · rw [new] at same
      rcases cases b boundB with insideB | rfl
      · rw [old b insideB] at same
        exact absurd same.symm (unused b madeB insideB)
      · rfl
  · intro var isHeld
    obtain ⟨isMade, ty, here⟩ := renames.held var isHeld
    refine ⟨isMade, ty, ?_⟩
    rw [Array.getElem?_push, if_neg (Nat.ne_of_lt (lt_size here))]
    exact here
  · intro var isFree
    obtain ⟨isMade, ⟨ty, here⟩, apart⟩ := renames.free var isFree
    refine ⟨isMade, ⟨ty, grown _ _ here⟩, fun a madeA boundA => ?_⟩
    rcases cases a boundA with insideA | rfl
    · rw [old a insideA]
      exact apart a madeA insideA
    · rw [new]
      exact fun same => isTaken (same ▸ isFree)

theorem counterpart (mem : var < vars.size) : rename var < others.size :=
  (lt_size (renames.kept var _ (Array.getElem?_eq_getElem mem)))

theorem locals_le : frame.locals ≤ others.size := by
  rcases Nat.eq_zero_or_pos frame.locals with isEmpty | isSome
  · exact isEmpty ▸ Nat.zero_le _
  · have below : frame.locals - 1 < frame.locals := Nat.sub_lt isSome Nat.one_pos
    have mem := renames.counterpart (below.trans_le (renames.ordered.trans renames.within))
    rw [renames.user _ below] at mem
    exact Nat.le_of_pred_lt mem

theorem pushBoth (data : LocalVar) :
    Renames frame (Function.update rename vars.size others.size) (vars.push data) (others.push data) := by
  refine renames.push (by simp) (fun var known here => ?_) ?_ (fun a _ mem => ?_) fun isFree => ?_
  · rw [Array.getElem?_push, if_neg (Nat.ne_of_lt (lt_size here))]
    exact here
  · exact renames.locals_le
  · exact Nat.ne_of_lt (renames.counterpart mem)
  · obtain ⟨_, ⟨_, here⟩, _⟩ := renames.free _ isFree
    exact absurd (lt_size here) (Nat.lt_irrefl _)

end Renames

structure Twins (frame : Frame) (rename : LocalId → LocalId) (p q : Procedure) :
    Prop where
  renames : Renames frame rename p.locals q.locals
  size : q.nodes.size = p.nodes.size
  node : ∀ (id : NodeId) (node : Node), p.nodes[id]? = some node →
    ∃ kind, q.nodes[id]? = some { node with kind } ∧ node.kind.Mirrors rename kind
  accessed : ∀ (id : NodeId) (node : Node) (var : LocalId), p.nodes[id]? = some node →
    node.kind.accesses? = some var → var < p.locals.size ∧ (id < frame.nodes → var < frame.locals)
      ∧ (frame.madeNodes ≤ id → frame.Own var)
  count : q.calls.size = p.calls.size
  call : ∀ (id : CallId) (data : Call), p.calls[id]? = some data →
    ∃ data', q.calls[id]? = some data' ∧ data.Twins data'
  allocatesStack : q.allocatesStack = p.allocatesStack
  ordered : frame.nodes ≤ frame.madeNodes
  within : frame.madeNodes ≤ p.nodes.size

namespace Twins

variable {frame : Frame} {rename : LocalId → LocalId} {p q : Procedure}

variable (twins : Twins frame rename p q)

include twins

theorem live_own {node : Node} (live : frame.Live id) (here : p.nodes[id]? = some node)
    (accesses : node.kind.accesses? = some var) : frame.Own var ∧ var < p.locals.size := by
  obtain ⟨mem, old, new⟩ := twins.accessed id node var here accesses
  rcases live with isOld | isNew
  · exact ⟨.inl (old isOld), mem⟩
  · exact ⟨new isNew, mem⟩

theorem live_new (new : p.nodes.size ≤ id) : frame.Live id :=
  .inr (twins.within.trans new)

theorem lookup (id : NodeId) :
    (∃ node kind, p.node id = .ok node ∧ q.node id = .ok { node with kind } ∧ node.kind.Mirrors rename kind)
      ∨ ∃ fault, p.node id = .error fault ∧ q.node id = .error fault := by
  unfold Procedure.node
  cases here : p.nodes[id]? with
  | none =>
    have there : q.nodes[id]? = none :=
      Array.getElem?_eq_none_iff.mpr (twins.size ▸ Array.getElem?_eq_none_iff.mp here)
    rw [there]
    exact .inr ⟨_, rfl, rfl⟩
  | some node =>
    obtain ⟨kind, there, mirrors⟩ := twins.node id node here
    rw [there]
    exact .inl ⟨node, kind, rfl, rfl, mirrors⟩

theorem calls (id : CallId) :
    (∃ data data', p.call id = .ok data ∧ q.call id = .ok data' ∧ data.Twins data')
      ∨ ∃ fault, p.call id = .error fault ∧ q.call id = .error fault := by
  unfold Procedure.call
  cases here : p.calls[id]? with
  | none =>
    have there : q.calls[id]? = none :=
      Array.getElem?_eq_none_iff.mpr (twins.count ▸ Array.getElem?_eq_none_iff.mp here)
    rw [there]
    exact .inr ⟨_, rfl, rfl⟩
  | some data =>
    obtain ⟨data', there, both⟩ := twins.call id data here
    rw [there]
    exact .inl ⟨data, data', rfl, rfl, both⟩

theorem node_eq (id : NodeId) : (q.node id).map Node.impact = (p.node id).map Node.impact := by
  rcases twins.lookup id with ⟨node, kind, here, there, _⟩ | ⟨_, here, there⟩
  · rw [here, there]
    rfl
  · rw [here, there]

theorem impactOfAll (ids : List NodeId) : q.impactOfAll ids = p.impactOfAll ids := by
  have through : ∀ (proc : Procedure) (impact : Impact) (id : NodeId),
      (do pure (impact.union (← proc.node id).impact) : Except Fault Impact)
        = ((proc.node id).map Node.impact).map impact.union := by
    intro proc impact id
    cases proc.node id <;> rfl
  simp only [Procedure.impactOfAll, through, twins.node_eq]

theorem references (mirrors : kind.Mirrors rename other) : q.references other = p.references kind := by
  cases isCall : kind.call? with
  | none =>
    rw [p.references_of_plain isCall, q.references_of_plain (mirrors.call.trans isCall),
      mirrors.children]
  | some call =>
    cases mirrors with
    | same _ plain =>
      cases kind with
      | call own =>
        rcases twins.calls own with ⟨data, data', here, there, same⟩ | ⟨_, here, there⟩
        · simp only [Procedure.references, here, there]
          exact congrArg Except.ok same.references
        · simp only [Procedure.references, here, there]
      | _ => cases isCall
    | _ => cases isCall

theorem ownImpact (mirrors : kind.Mirrors rename other)
    (declared : ∀ var, kind.accesses? = some var → var < p.locals.size) : q.ownImpact other = p.ownImpact kind := by
  have localVar : ∀ var, kind.accesses? = some var → q.localVar (rename var) = p.localVar var := by
    intro var accesses
    have mem := declared var accesses
    have here : p.locals[var]? = some p.locals[var] := Array.getElem?_eq_getElem mem
    rw [p.localVar_ok_iff.mpr here, q.localVar_ok_iff.mpr (twins.renames.kept var _ here)]
  cases mirrors with
  | readLocal var => simp only [Procedure.ownImpact, localVar var rfl]
  | readField var offset => simp only [Procedure.ownImpact, localVar var rfl]
  | storeLocal var value => simp only [Procedure.ownImpact, localVar var rfl]
  | localAddr var other => rfl
  | same _ plain =>
    cases kind with
    | binary op lhs rhs =>
      rcases twins.lookup rhs with ⟨node, kind, here, there, mirrors⟩ | ⟨_, here, there⟩
      · simp only [Procedure.ownImpact, here, there]
        change (pure _ : Except Fault Impact) = pure _
        rw [mirrors.isSafeDivisor]
      · simp only [Procedure.ownImpact, here, there]
    | readLocal _ | readField _ _ | storeLocal _ _ => cases plain
    | _ => rfl

theorem impactOf (mirrors : kind.Mirrors rename other)
    (declared : ∀ var, kind.accesses? = some var → var < p.locals.size) : q.impactOf other = p.impactOf kind := by
  simp only [Procedure.impactOf, twins.references mirrors, twins.ownImpact mirrors declared, twins.impactOfAll]

end Twins

end CallLowering
