import CallLowering.Proofs.Endings
import CallLowering.Proofs.Forest
import Mathlib.Algebra.Order.Field.Basic
import Mathlib.Algebra.Order.Field.Rat
import Mathlib.Data.Finset.Card
import Mathlib.Data.Finset.Range
import Mathlib.Order.CountableDenseLinearOrder

/-!
Ranks that keep the nodes in order. They descend from a node to its children, and from the node of a call, past
the level of the call, to everything the call refers to.
-/

namespace CallLowering

variable {id child list : NodeId} {data : Call} {kind : NodeKind} {ty : ValueType} {held' : Call → Prop}
  {after before : List FieldUse}

def Call.mentions (data : Call) : List NodeId := data.references ++ data.cookie.toList

theorem Call.mem_mentions : id ∈ data.mentions ↔ (∃ arg ∈ data.args.args, arg.early = some id ∨ arg.late = some id)
      ∨ data.target.node? = some id ∨ data.cookie = some id := by
  simp [mentions, references]

structure Procedure.Ranked (proc : Procedure) (rank : NodeId → ℚ) (level : CallId → ℚ) : Prop where
  children : ∀ (id : NodeId) (kind : NodeKind), proc.kindAt id = some kind →
    ∀ child ∈ kind.children, child < proc.nodes.size ∧ rank child < rank id
  callers : ∀ (id : NodeId) (call : CallId), proc.kindAt id = some (.call call) →
    call < proc.calls.size ∧ level call ≤ rank id
  mentioned : ∀ (call : CallId) (data : Call), proc.calls[call]? = some data →
    ∀ id ∈ data.mentions, id < proc.nodes.size ∧ rank id < level call

theorem card_filter_range_lt {n : Nat} {few many : Nat → Prop} [DecidablePred few] [DecidablePred many]
    (sub : ∀ x, few x → many x) {item : Nat} (mem : item < n) (isMany : many item)
    (isNotFew : ¬ few item) : ((Finset.range n).filter few).card < ((Finset.range n).filter many).card := by
  apply Finset.card_lt_card
  rw [Finset.ssubset_iff_of_subset (Finset.monotone_filter_right _ fun x _ => sub x)]
  exact ⟨item, Finset.mem_filter.mpr ⟨Finset.mem_range.mpr mem, isMany⟩,
    fun isFew => isNotFew (Finset.mem_filter.mp isFew).2⟩

namespace Procedure

variable {p : Procedure} {rank : NodeId → ℚ} {bound : ℚ}

def countBelow (p : Procedure) (rank : NodeId → ℚ) (bound : ℚ) : Nat :=
  ((Finset.range p.nodes.size).filter fun id => rank id < bound).card

theorem countBelow_lt (mem : id < p.nodes.size) (less : rank id < bound) :
    p.countBelow rank (rank id) < p.countBelow rank bound :=
  card_filter_range_lt (fun other (below : rank other < rank id) => below.trans less) mem less (lt_irrefl _)

theorem countBelow_lt_size (mem : id < p.nodes.size) : p.countBelow rank (rank id) < p.nodes.size := by
  have fewer : p.countBelow rank (rank id) < ((Finset.range p.nodes.size).filter fun _ => True).card :=
    card_filter_range_lt (fun _ _ => trivial) mem trivial (lt_irrefl _)
  simpa using fewer

end Procedure

-- Nodes keep their kinds, but that a field list may come to list other reads.
def Procedure.Relists (p q : Procedure) : Prop :=
  ∀ (id : NodeId) (kind : NodeKind), p.kindAt id = some kind → q.kindAt id = some kind
    ∨ (∃ uses, kind = .fieldList uses) ∧ ∃ uses, q.kindAt id = some (.fieldList uses)
      ∧ ∀ use ∈ uses, ∃ var, q.kindAt use.node = some (.readLocal var)

namespace Procedure.Relists

theorem of_same {p q : Procedure} (same : ∀ id kind, p.kindAt id = some kind → q.kindAt id = some kind) :
    p.Relists q :=
  fun id kind here => .inl (same id kind here)

theorem trans {p q r : Procedure} (first : p.Relists q) (second : q.Relists r) : p.Relists r := by
  intro id kind here
  rcases first id kind here with same | ⟨isList, uses, listed, reads⟩
  · exact second id kind same
  rcases second id _ listed with same | ⟨_, listedAgain⟩
  · refine .inr ⟨isList, uses, same, fun use mem => ?_⟩
    obtain ⟨var, isRead⟩ := reads use mem
    rcases second use.node _ isRead with same | ⟨⟨_, never⟩, _⟩
    · exact ⟨var, same⟩
    · cases never
  · exact .inr ⟨isList, listedAgain⟩

end Procedure.Relists

theorem exists_rank_between {ranks : List ℚ} {bound : ℚ} (below : ∀ r ∈ ranks, r < bound) :
    ∃ x < bound, ∀ r ∈ ranks, r < x := by
  obtain ⟨x, above, less⟩ := Order.exists_between_finsets ranks.toFinset {bound} (by simpa using below)
  exact ⟨x, by simpa using less, by simpa using above⟩

-- The place where work goes on: a call of a ranked procedure.
structure Site where
  origin : Procedure
  rank : NodeId → ℚ
  level : CallId → ℚ
  call : CallId

namespace Site

-- Work on behalf of the call keeps the older ranks and all other calls.
structure Reworked (site : Site) (now : NodeId → ℚ) (p : Procedure) : Prop where
  ranked : p.Ranked now site.level
  same : ∀ id < site.origin.nodes.size, now id = site.rank id
  new : ∀ id, site.origin.nodes.size ≤ id → id < p.nodes.size → now id < site.level site.call
  grown : site.origin.nodes.size ≤ p.nodes.size
  relists : site.origin.Relists p
  count : p.calls.size = site.origin.calls.size
  others : ∀ other, other ≠ site.call → p.calls[other]? = site.origin.calls[other]?

def Low (site : Site) (p : Procedure) (id : NodeId) : Prop :=
  id < p.nodes.size ∧ (id < site.origin.nodes.size → site.rank id < site.level site.call)

def Holds (site : Site) (held : Call → Prop) (p : Procedure) : Prop :=
  (∃ now, site.Reworked now p) ∧ ∃ data, p.calls[site.call]? = some data ∧ held data

structure Grows (site : Site) (held : Call → Prop) (p q : Procedure) : Prop where
  holds : site.Holds held q
  added : Adds p q

structure Makes (site : Site) (held : Call → Prop) (p : Procedure) (id : NodeId) (q : Procedure) : Prop
    extends site.Grows held p q where
  low : site.Low q id

variable {site : Site} {held : Call → Prop} {p q r : Procedure}

theorem Low.mono (low : site.Low p id) (grown : p.nodes.size ≤ q.nodes.size) : site.Low q id :=
  ⟨Nat.lt_of_lt_of_le low.1 grown, low.2⟩

namespace Reworked

variable {now : NodeId → ℚ}

variable (work : site.Reworked now p)

include work

theorem low_iff (bound : id < p.nodes.size) : site.Low p id ↔ now id < site.level site.call := by
  by_cases old : id < site.origin.nodes.size
  · rw [work.same id old]
    exact ⟨fun low => low.2 old, fun less => ⟨bound, fun _ => less⟩⟩
  · exact ⟨fun _ => work.new id (Nat.le_of_not_lt old) bound, fun _ => ⟨bound, fun isOld => absurd isOld old⟩⟩

theorem addNode (low : ∀ child ∈ kind.children, site.Low p child)
    (isPlain : kind.call? = none) (done : Edit.addNode kind ty p = .ok id q) : ∃ after, site.Reworked after q := by
  have kinds := Edit.addNode_kinds done
  have calls := (Edit.addNode_adds done).calls
  have size : q.nodes.size = p.nodes.size + 1 := by
    obtain ⟨_, _, _, rfl⟩ := Edit.addNode_ok done
    exact Array.size_push _
  have grows : p.nodes.size ≤ q.nodes.size := Nat.le_of_lt (by omega)
  obtain ⟨fresh, under, above⟩ := exists_rank_between (by
    intro r mem
    obtain ⟨child, member, rfl⟩ := List.mem_map.mp mem
    exact (work.low_iff (low child member).1).mp (low child member))
  have old : ∀ other < p.nodes.size, Function.update now p.nodes.size fresh other = now other :=
    fun other bound => Function.update_of_ne (Nat.ne_of_lt bound) _ _
  have atNew : Function.update now p.nodes.size fresh p.nodes.size = fresh := Function.update_self _ _ _
  have relists : p.Relists q :=
    .of_same fun other otherKind here => by rw [kinds other, if_neg (Nat.ne_of_lt (p.kindAt_lt here)), here]
  refine ⟨Function.update now p.nodes.size fresh, ⟨?_, ?_, ?_⟩, ?_, ?_, ?_, work.relists.trans relists,
    calls ▸ work.count, ?_⟩
  · intro other otherKind here child member
    rw [kinds other] at here
    split at here
    · subst other
      cases here
      have bound := (low child member).1
      rw [old child bound, atNew]
      exact ⟨Nat.lt_of_lt_of_le bound grows, above _ (List.mem_map_of_mem member)⟩
    · have bound := p.kindAt_lt here
      obtain ⟨childBound, less⟩ := work.ranked.children other otherKind here child member
      rw [old child childBound, old other bound]
      exact ⟨Nat.lt_of_lt_of_le childBound grows, less⟩
  · intro other call here
    rw [kinds other] at here
    split at here
    · cases here
      cases isPlain
    · rw [old other (p.kindAt_lt here), calls]
      exact work.ranked.callers other call here
  · intro call data here other member
    rw [calls] at here
    obtain ⟨bound, less⟩ := work.ranked.mentioned call data here other member
    rw [old other bound]
    exact ⟨Nat.lt_of_lt_of_le bound grows, less⟩
  · intro other bound
    rw [old other (Nat.lt_of_lt_of_le bound work.grown)]
    exact work.same other bound
  · intro other isNew bound
    by_cases last : other = p.nodes.size
    · rw [last, atNew]
      exact under
    · rw [old other (by omega)]
      exact work.new other isNew (by omega)
  · exact work.grown.trans grows
  · intro other outside
    rw [calls]
    exact work.others other outside

theorem setCall (low : ∀ id ∈ data.mentions, site.Low p id) : site.Reworked now (p.setCall site.call data) := by
  have others : ∀ other, other ≠ site.call → (p.setCall site.call data).calls[other]? = p.calls[other]? :=
    fun other outside => Array.getElem?_setIfInBounds_ne (Ne.symm outside)
  have count : (p.setCall site.call data).calls.size = p.calls.size := Array.size_setIfInBounds
  refine ⟨⟨work.ranked.children, count.symm ▸ work.ranked.callers, ?_⟩, work.same, work.new, work.grown,
    work.relists, count.trans work.count, fun other outside => (others other outside).trans (work.others other outside)⟩
  intro call now here id member
  by_cases same : call = site.call
  · subst same
    have bound : site.call < p.calls.size := by
      have mem := lt_size here
      simpa [Procedure.setCall] using mem
    have isData : data = now :=
      Option.some.inj ((Array.getElem?_setIfInBounds_self_of_lt bound).symm.trans here)
    subst isData
    exact ⟨(low id member).1, (work.low_iff (low id member).1).mp (low id member)⟩
  · rw [others call same] at here
    exact work.ranked.mentioned call now here id member

-- A field list may come to list reads that the work itself made. They refer to nothing, so their
-- ranks can go down until they are below the list's.
theorem relist {node : Node} (here : p.kindAt list = some (.fieldList before)) (isList : node.kind = .fieldList after)
    (reads : ∀ use ∈ after, site.origin.nodes.size ≤ use.node
      ∧ ∃ var, p.kindAt use.node = some (.readLocal var)) : ∃ lower, site.Reworked lower (p.setNode list node) := by
  have atList := p.kindAt_lt here
  have size : (p.setNode list node).nodes.size = p.nodes.size := Array.size_setIfInBounds
  have kinds : ∀ other, (p.setNode list node).kindAt other
      = if other = list then some (.fieldList after) else p.kindAt other := by
    intro other
    simp only [Procedure.kindAt, Procedure.setNode]
    split
    · subst other
      rw [Array.getElem?_setIfInBounds_self_of_lt atList, Option.map_some, isList]
    · rename_i outside
      rw [Array.getElem?_setIfInBounds_ne (Ne.symm outside)]
  -- Only reads get another rank, and it is never higher than before.
  let lower : NodeId → ℚ := fun id =>
    if id ∈ after.map FieldUse.node then min (now id) (now list - 1) else now id
  have isRead : ∀ id ∈ after.map FieldUse.node, site.origin.nodes.size ≤ id
      ∧ ∃ var, p.kindAt id = some (.readLocal var) := by
    intro id mem
    obtain ⟨use, member, rfl⟩ := List.mem_map.mp mem
    exact reads use member
  have le : ∀ id, lower id ≤ now id := by
    intro id
    simp only [lower]
    split
    · exact min_le_left _ _
    · exact le_refl _
  have unchanged : ∀ id kind, p.kindAt id = some kind → (∀ var, kind ≠ .readLocal var) →
      lower id = now id := by
    intro id kind atId other
    refine if_neg fun mem => ?_
    obtain ⟨_, var, isLocal⟩ := isRead id mem
    exact other var (Option.some.inj (atId.symm.trans isLocal))
  have relists : p.Relists (p.setNode list node) := by
    intro id kind atId
    rw [kinds id]
    split
    · subst id
      cases here.symm.trans atId
      refine .inr ⟨⟨before, rfl⟩, after, rfl, fun use member => ?_⟩
      obtain ⟨_, var, isLocal⟩ := reads use member
      have apart : use.node ≠ list := fun same => by cases (same ▸ isLocal).symm.trans here
      exact ⟨var, by rw [kinds, if_neg apart, isLocal]⟩
    · exact .inl atId
  refine ⟨lower, ⟨?_, ?_, ?_⟩, ?_, ?_, by rw [size]; exact work.grown, work.relists.trans relists, work.count,
    work.others⟩
  · intro id kind atId child member
    rw [kinds id] at atId
    rw [size]
    split at atId
    · subst id
      cases atId
      obtain ⟨_, var, isLocal⟩ := isRead child member
      refine ⟨p.kindAt_lt isLocal, ?_⟩
      rw [unchanged list _ here (by simp)]
      simp only [lower, if_pos (show child ∈ after.map FieldUse.node from member)]
      exact (min_le_right _ _).trans_lt (sub_one_lt _)
    · obtain ⟨bound, less⟩ := work.ranked.children id kind atId child member
      refine ⟨bound, ?_⟩
      rw [unchanged id kind atId (by rintro var rfl; simp [NodeKind.children] at member)]
      exact (le child).trans_lt less
  · intro id call atId
    rw [kinds id] at atId
    split at atId
    · cases atId
    · rw [unchanged id _ atId (by simp)]
      exact work.ranked.callers id call atId
  · intro call data atCall id member
    obtain ⟨bound, less⟩ := work.ranked.mentioned call data atCall id member
    rw [size]
    exact ⟨bound, (le id).trans_lt less⟩
  · intro id bound
    have old : lower id = now id := if_neg fun mem => by have := (isRead id mem).1; omega
    rw [old]
    exact work.same id bound
  · intro id isNew bound
    rw [size] at bound
    exact (le id).trans_lt (work.new id isNew bound)

end Reworked

theorem Grows.refl (holds : site.Holds held p) : site.Grows held p p := ⟨holds, Extends.refl⟩

theorem Grows.trans (first : site.Grows held p q) (second : site.Grows held q r) : site.Grows held p r :=
  ⟨second.holds, first.added.trans second.added⟩

theorem Grows.low (grows : site.Grows held p q) (low : site.Low p id) : site.Low q id :=
  low.mono grows.added.size_le

theorem Grows.makes {ε α : Type} {x : EStateM ε Procedure α} {node : α → NodeId} {ill : ε → Procedure → Prop}
    (first : site.Grows held p q) (made : Ends (x q) (fun a => site.Makes held q (node a)) ill) :
    Ends (x q) (fun a => site.Makes held p (node a)) ill :=
  made.weaken fun _ _ makes => ⟨first.trans makes.toGrows, makes.low⟩

theorem Grows.kindAt (grows : site.Grows held p q) (here : p.kindAt id = some kind) : q.kindAt id = some kind := by
  obtain ⟨node, atNode, isKind⟩ := p.kindAt_some_iff.mp here
  exact q.kindAt_of (grows.added.node atNode) isKind

namespace Holds

open Edit

theorem weaken (holds : site.Holds held p) (mono : ∀ data, held data → held' data) : site.Holds held' p := by
  obtain ⟨work, data, here, isHeld⟩ := holds
  exact ⟨work, data, here, mono data isHeld⟩

section Holds

variable (holds : site.Holds held p)

include holds

section Mentions

variable (here : p.calls[site.call]? = some data)

include here

theorem mention_low (member : id ∈ data.mentions) : site.Low p id := by
  obtain ⟨⟨now, work⟩, _⟩ := holds
  obtain ⟨bound, less⟩ := work.ranked.mentioned site.call data here id member
  exact (work.low_iff bound).mpr less

theorem arg_low {arg : Argument} (mem : arg ∈ data.args.args)
    (isNode : arg.early = some id ∨ arg.late = some id) : site.Low p id :=
  holds.mention_low here (Call.mem_mentions.mpr (.inl ⟨arg, mem, isNode⟩))

theorem target_low (target : data.target.node? = some id) : site.Low p id :=
  holds.mention_low here (Call.mem_mentions.mpr (.inr (.inl target)))

theorem cookie_low (cookie : data.cookie = some id) : site.Low p id :=
  holds.mention_low here (Call.mem_mentions.mpr (.inr (.inr cookie)))

end Mentions

theorem child_low (low : site.Low p id) (here : p.kindAt id = some kind) (member : child ∈ kind.children) :
    site.Low p child := by
  obtain ⟨⟨now, work⟩, _⟩ := holds
  obtain ⟨bound, less⟩ := work.ranked.children id kind here child member
  exact (work.low_iff bound).mpr (less.trans ((work.low_iff low.1).mp low))

theorem addNode (low : ∀ child ∈ kind.children, site.Low p child) (isPlain : kind.call? = none) :
    Ends (Edit.addNode kind ty p) (fun id q => site.Grows held p q ∧ site.Low q id
      ∧ site.origin.nodes.size ≤ id ∧ q.kindAt id = some kind) Spares := by
  refine (addNode_ends kind ty).weaken fun id q done => ?_
  obtain ⟨⟨now, work⟩, data, here, isHeld⟩ := holds
  obtain ⟨atEnd, isKind⟩ := addNode_kindAt done
  have added := addNode_adds done
  have isNew : site.origin.nodes.size ≤ id := atEnd ▸ work.grown
  exact ⟨⟨⟨work.addNode low isPlain done, data, added.calls ▸ here, isHeld⟩, added⟩,
    ⟨q.kindAt_lt isKind, fun old => absurd old (Nat.not_lt.mpr isNew)⟩, isNew, isKind⟩

theorem addLeaf (leaf : kind.children = []) (isPlain : kind.call? = none) :
    Ends (Edit.addNode kind ty p) (fun id q => site.Grows held p q ∧ site.Low q id
      ∧ site.origin.nodes.size ≤ id ∧ q.kindAt id = some kind) Spares :=
  holds.addNode (by simp [leaf]) isPlain

theorem addOver (low : site.Low p child) (one : kind.children = [child])
    (isPlain : kind.call? = none) : Ends (Edit.addNode kind ty p) (site.Makes held p) Spares :=
  (holds.addNode (by simpa [one] using low) isPlain).weaken fun _ _ made => ⟨made.1, made.2.1⟩

theorem addPair {left right : NodeId} (leftLow : site.Low p left) (rightLow : site.Low p right)
    (two : kind.children = [left, right]) (isPlain : kind.call? = none) :
    Ends (Edit.addNode kind ty p) (site.Makes held p) Spares :=
  (holds.addNode (by simp [two, leftLow, rightLow]) isPlain).weaken fun _ _ made => ⟨made.1, made.2.1⟩

theorem addList {uses : List FieldUse} (low : ∀ use ∈ uses, site.Low p use.node) :
    Ends (Edit.addNode (.fieldList uses) ty p) (site.Makes held p) Spares :=
  (holds.addNode (by simpa [NodeKind.children] using low) rfl).weaken fun _ _ made => ⟨made.1, made.2.1⟩

theorem addLocal (var : LocalVar) : Ends (Edit.addLocal var p) (fun _ q => site.Grows held p q) Spares := by
  obtain ⟨⟨now, work⟩, known⟩ := holds
  have added := p.addLocal_adds var
  exact ⟨⟨⟨now, { work with ranked := { work.ranked with } }⟩, known⟩, added⟩

theorem relist (here : p.kindAt list = some (.fieldList before))
    (reads : ∀ use ∈ after, site.origin.nodes.size ≤ use.node
      ∧ ∃ var, p.kindAt use.node = some (.readLocal var)) :
    Ends (replaceNode list (.fieldList after) ty p)
      (fun _ q => site.Holds held q ∧ p.nodes.size ≤ q.nodes.size) Spares := by
  refine (replaceNode_ends list ty).weaken fun _ q done => ?_
  obtain ⟨impact, old, _, _, rfl⟩ := replaceNode_ok done
  obtain ⟨⟨now, work⟩, known⟩ := holds
  have isList : ({ kind := .fieldList after, ty, impact } : Node).kind = .fieldList after := rfl
  obtain ⟨lower, after⟩ := work.relist here isList reads
  exact ⟨⟨⟨lower, { after with ranked := { after.ranked with } }⟩, known⟩, Nat.le_of_eq Array.size_setIfInBounds.symm⟩

theorem setCall (args : ∀ arg ∈ data.args.args, ∀ id, arg.early = some id ∨ arg.late = some id → site.Low p id)
    (target : ∀ id, data.target.node? = some id → site.Low p id)
    (cookie : ∀ id, data.cookie = some id → site.Low p id) (isHeld : held' data) :
    site.Holds held' (p.setCall site.call data) := by
  obtain ⟨⟨now, work⟩, old, here, _⟩ := holds
  have low : ∀ id ∈ data.mentions, site.Low p id := by
    intro id member
    rcases Call.mem_mentions.mp member with ⟨arg, mem, isNode⟩ | isTarget | isCookie
    · exact args arg mem id isNode
    · exact target id isTarget
    · exact cookie id isCookie
  exact ⟨⟨now, work.setCall low⟩, data, p.setCall_here data here, isHeld⟩

theorem setArgs {list : ArgList} (here : p.calls[site.call]? = some data)
    (args : ∀ arg ∈ list.args, ∀ id, arg.early = some id ∨ arg.late = some id → site.Low p id)
    (isHeld : held' { data with args := list }) :
    site.Holds held' (p.setCall site.call { data with args := list }) :=
  holds.setCall args (fun _ target => holds.target_low here target)
    (fun _ cookie => holds.cookie_low here cookie) isHeld

theorem modifyArg {index : Nat} {step : Argument → Argument}
    (low : ∀ arg id, (step arg).early = some id ∨ (step arg).late = some id →
      arg.early = some id ∨ arg.late = some id ∨ site.Low p id)
    (isHeld : ∀ data arg, held data → data.args.args[index]? = some arg →
      held' (data.withArgs (data.args.args.set index (step arg)))) :
    Ends (Edit.modifyArg site.call index step p) (fun _ q => site.Holds held' q) Spares := by
  refine (modifyArg_ends site.call index step).weaken fun _ q done => ?_
  obtain ⟨data, arg, here, atIndex, rfl⟩ := done
  obtain ⟨_, same, atSame, wasHeld⟩ := id holds
  cases here.symm.trans atSame
  refine holds.setArgs here (fun other mem id isNode => ?_) (isHeld data arg wasHeld atIndex)
  rcases List.mem_or_eq_of_mem_set mem with old | rfl
  · exact holds.arg_low here old isNode
  · rcases low arg id isNode with early | late | isLow
    · exact holds.arg_low here (List.mem_of_getElem? atIndex) (.inl early)
    · exact holds.arg_low here (List.mem_of_getElem? atIndex) (.inr late)
    · exact isLow

end Holds

theorem isSimpleLeaf_leaf (simple : isSimpleLeaf kind = true) : kind.children = [] ∧ kind.call? = none := by
  cases kind with
  | intConst | floatConst | readLocal | readField | localAddr => exact ⟨rfl, rfl⟩
  | _ => cases simple

theorem cloneWithin {depth : Nat} (holds : site.Holds held p) (low : site.Low p id) :
    Ends (Edit.cloneWithin depth id p) (fun copy q => site.Grows held p q
      ∧ ∀ clone, copy = some clone → site.Low q clone) Spares := by
  induction depth generalizing id p with
  | zero => exact rfl
  | succ depth ih =>
    refine Ends.bind (node_ends id) fun source q found => ?_
    obtain ⟨rfl, here⟩ := found
    have atKind := q.kindAt_of here rfl
    have nothing : site.Grows held q q ∧ ∀ clone, (none : Option NodeId) = some clone → site.Low q clone :=
      ⟨.refl holds, by simp⟩
    cases kindEq : source.kind with
    | binary op lhs rhs =>
      rw [kindEq] at atKind
      dsimp only
      split
      · refine Ends.bind (ih holds (holds.child_low low atKind (by simp [NodeKind.children]))) ?_
        rintro lhsCopy m ⟨first, lhsLow⟩
        cases lhsCopy with
        | none => exact ⟨first, by simp⟩
        | some left =>
          have rhsLow : site.Low m rhs :=
            first.low (holds.child_low low atKind (by simp [NodeKind.children]))
          refine Ends.bind (ih first.holds rhsLow) ?_
          rintro rhsCopy n ⟨second, rightLow⟩
          cases rhsCopy with
          | none => exact ⟨first.trans second, by simp⟩
          | some right =>
            refine Ends.bind (second.holds.addPair (second.low (lhsLow _ rfl)) (rightLow _ rfl) rfl rfl) ?_
            rintro copy last ⟨third, copyLow⟩
            refine ⟨(first.trans second).trans third, ?_⟩
            rintro _ ⟨⟩
            exact copyLow
      · exact nothing
    | _ =>
      dsimp only
      split
      · rename_i simple
        obtain ⟨leaf, isPlain⟩ := isSimpleLeaf_leaf simple
        refine Ends.bind (holds.addLeaf leaf isPlain) ?_
        rintro copy last ⟨grows, copyLow, _⟩
        refine ⟨grows, ?_⟩
        rintro _ ⟨⟩
        exact copyLow
      · exact nothing

theorem cloneSimple (holds : site.Holds held p) (low : site.Low p id) :
    Ends (Edit.cloneSimple id p) (fun copy q => site.Grows held p q
      ∧ ∀ clone, copy = some clone → site.Low q clone) Spares :=
  cloneWithin holds low

end Holds

end Site

end CallLowering
