import CallLowering.Proofs.VerifierExact

/-!
What a cap does to a report. The calls of a program are checked one after the other into one report, which stops
growing at its cap.
-/

namespace CallLowering

open List

variable {id : CallId} {proc : Procedure} {limit : Nat} {inner : Report}

structure CallSite where
  proc : Procedure
  id : CallId

namespace CallSite

def Lowered (site : CallSite) : Prop :=
  ∃ call, site.proc.calls[site.id]? = some call ∧ call.args.isMaterialized = true

def isUnlowered (site : CallSite) : Bool :=
  site.proc.calls[site.id]?.any fun call => !call.args.isMaterialized

def Passes (config : CheckConfig) (site : CallSite) : Prop :=
  ∃ report, site.proc.verifyCall config site.id = .ok report ∧ report.isOk = true

def noted (config : CheckConfig) (site : CallSite) : Except Fault (List Diagnostic) := do
  let call ← site.proc.call site.id
  if call.args.isMaterialized then do pure (← site.proc.verifyCall config site.id).diagnostics
  else pure (if config.unlowered then [site.proc.unlowered site.id] else [])

end CallSite

def Procedure.sites (proc : Procedure) : List CallSite :=
  (List.range proc.calls.size).map fun id => ⟨proc, id⟩

def Program.sites (program : Program) : List CallSite := program.procedures.toList.flatMap Procedure.sites

def CheckConfig.warnings (config : CheckConfig) (sites : List CallSite) : Nat :=
  if config.unlowered then sites.countP CallSite.isUnlowered else 0

def Report.fill (config : CheckConfig) : Report → List CallSite → Except Fault Report
  | report, [] => .ok report
  | report, site :: rest =>
    if report.isFull config.cap then .ok report
    else do fill config (report.merge config.cap (← site.noted config)) rest

variable {config : CheckConfig} {report final : Report} {sites : List CallSite}

namespace Report

variable {report : Report} {cap : Nat} {first second : List Diagnostic}

theorem mergeAll_eq_foldl (others : List Report) :
    report.mergeAll cap others = others.foldl (fun report other => report.merge cap other.diagnostics) report := by
  induction others generalizing report with
  | nil => rfl
  | cons other rest ih =>
    rw [mergeAll, foldl_cons, ih]
    split
    · rename_i full
      rw [merge_of_full full, ← ih]
      cases rest with
      | nil => rfl
      | cons => exact (if_pos full).symm
    · rfl

theorem merge_of_room (room : ¬ report.isFull cap = true) (more : List Diagnostic) :
    ∃ count, (report.merge cap more).diagnostics = report.diagnostics ++ more.take (count + 1) := by
  rw [merge_eq]
  by_cases unlimited : cap = 0
  · exact ⟨more.length, by rw [if_pos unlimited, take_of_length_le (Nat.le_succ _)]⟩
  · refine ⟨cap - report.diagnostics.length - 1, ?_⟩
    rw [isFull_iff] at room
    rw [if_neg unlimited, Nat.sub_add_cancel (by omega)]

theorem merge_append : (report.merge cap first).merge cap second = report.merge cap (first ++ second) := by
  simp only [merge_eq]
  split
  · rw [append_assoc]
  · have left : cap - (report.diagnostics.length + min (cap - report.diagnostics.length) first.length)
        = cap - report.diagnostics.length - first.length := by omega
    rw [append_assoc, take_append, length_append, length_take, left]

-- A report that was cut on its own is cut no further.
theorem merge_merged (limits : limit = 0 ∨ limit = cap) :
    report.merge cap (inner.merge limit first).diagnostics = report.merge cap (inner.diagnostics ++ first) := by
  simp only [merge_eq, mk.injEq, append_cancel_left_eq]
  rcases limits with rfl | rfl
  · rfl
  · split
    · rfl
    · rw [take_append, take_append, take_take, Nat.min_eq_left (by omega)]

theorem merge_append_of_full (full : (report.merge cap first).isFull cap = true) :
    report.merge cap (first ++ second) = report.merge cap first := by
  rw [← merge_append, merge_of_full full]

theorem fill_grows (done : report.fill config sites = .ok final) :
    ∃ more, final.diagnostics = report.diagnostics ++ more := by
  induction sites generalizing report with
  | nil =>
    cases done
    exact ⟨[], (append_nil _).symm⟩
  | cons site rest ih =>
    by_cases room : report.isFull config.cap = true
    · rw [fill, if_pos room] at done
      cases done
      exact ⟨[], (append_nil _).symm⟩
    · rw [fill, if_neg room, except_bind_ok_iff] at done
      obtain ⟨added, _, later⟩ := done
      obtain ⟨more, grown⟩ := ih later
      obtain ⟨count, kept⟩ := merge_of_room room added
      rw [kept, append_assoc] at grown
      exact ⟨_, grown⟩

theorem fill_append (before after : List CallSite) :
    report.fill config (before ++ after) = report.fill config before >>= fun next => next.fill config after := by
  induction before generalizing report with
  | nil => rfl
  | cons site rest ih =>
    by_cases room : report.isFull config.cap = true
    · rw [cons_append, fill, fill, if_pos room, if_pos room]
      cases after with
      | nil => rfl
      | cons other more => exact (if_pos room).symm
    · rw [cons_append, fill, fill, if_neg room, if_neg room, bind_assoc]
      simp only [ih]

end Report

theorem Procedure.verifyCall_capped (done : proc.verifyCall { config with cap := 0 } id = .ok report) :
    proc.verifyCall config id = .ok (Report.merge {} config.cap report.diagnostics) := by
  simp only [verifyCall, Report.foldl_push, except_bind_ok_iff] at done ⊢
  obtain ⟨call, here, found, checked, done⟩ := done
  refine ⟨call, here, found, checked, ?_⟩
  cases found with
  | nil =>
    cases done
    rfl
  | cons first rest =>
    simp only [Report.merge_eq, nil_append, if_true, map_cons, except_bind_ok_iff,
      except_pure_ok_iff] at done ⊢
    obtain ⟨table, shown, rfl⟩ := done
    cases config.cap with
    | zero => simp [shown, pure, Except.pure, bind, Except.bind]
    | succ fewer => simp [shown, pure, Except.pure, bind, Except.bind]

theorem CallSite.noted_capped {site : CallSite} {more : List Diagnostic}
    (limits : limit = 0 ∨ limit = config.cap) (done : site.noted { config with cap := limit } = .ok more) :
    ∃ fewer, site.noted config = .ok fewer
      ∧ ∀ report : Report, report.merge config.cap fewer = report.merge config.cap more := by
  rcases limits with rfl | rfl
  · simp only [noted, except_bind_ok_iff] at done ⊢
    obtain ⟨call, here, done⟩ := done
    by_cases lowered : call.args.isMaterialized = true
    · simp only [lowered, if_true, except_bind_ok_iff, except_pure_ok_iff] at done
      obtain ⟨report, checked, rfl⟩ := done
      refine ⟨(Report.merge {} config.cap report.diagnostics).diagnostics, ⟨call, here, ?_⟩,
        fun outer => Report.merge_merged (.inr rfl)⟩
      rw [if_pos lowered, Procedure.verifyCall_capped checked]
      rfl
    · rw [if_neg lowered] at done
      exact ⟨more, ⟨call, here, by rw [if_neg lowered]; exact done⟩, fun _ => rfl⟩
  · exact ⟨more, done, fun _ => rfl⟩

namespace Report

theorem fill_capped (limits : limit = 0 ∨ limit = config.cap) (outer : Report)
    (done : inner.fill { config with cap := limit } sites = .ok final) :
    (outer.merge config.cap inner.diagnostics).fill config sites
      = .ok (outer.merge config.cap final.diagnostics) := by
  induction sites generalizing inner with
  | nil =>
    cases done
    rfl
  | cons site rest ih =>
    by_cases full : (outer.merge config.cap inner.diagnostics).isFull config.cap = true
    · obtain ⟨more, grown⟩ := fill_grows done
      rw [fill, if_pos full, grown, merge_append_of_full full]
    · have room : ¬ inner.isFull limit = true := by
        rw [isFull_iff] at full ⊢
        rintro ⟨limited, long⟩
        have same := limits.resolve_left limited
        rw [same] at limited long
        refine full ⟨limited, ?_⟩
        simp only [merge_eq, limited, if_false, length_take, length_append]
        omega
      rw [fill, if_neg room, except_bind_ok_iff] at done
      obtain ⟨more, checked, later⟩ := done
      obtain ⟨fewer, here, same⟩ := site.noted_capped limits checked
      rw [fill, if_neg full, here]
      change ((outer.merge config.cap inner.diagnostics).merge config.cap fewer).fill config rest = _
      rw [same, merge_append, ← merge_merged limits, ih later]

end Report

theorem Procedure.verifyCalls_eq_fill (proc : Procedure) (report : Report) {ids : List CallId} :
    proc.verifyCalls config report ids = report.fill config (ids.map fun id => ⟨proc, id⟩) := by
  induction ids generalizing report with
  | nil => rfl
  | cons id rest ih =>
    simp only [verifyCalls, map_cons, Report.fill, CallSite.noted, bind_assoc, ih]
    congr 2
    funext call
    split
    · simp only [bind_assoc, pure_bind]
    · simp only [pure_bind]
      split
      · rfl
      · rfl

theorem Procedure.verify_eq_fill (proc : Procedure) : proc.verify config = Report.fill config {} proc.sites :=
  proc.verifyCalls_eq_fill {}

theorem Program.fill_of_verify {program : Program} (done : program.verify config = .ok report) :
    Report.fill config {} program.sites = .ok report := by
  simp only [verify, except_bind_ok_iff, except_pure_ok_iff, mapM_except_ok_iff] at done
  obtain ⟨reports, each, rfl⟩ := done
  rw [sites, Report.mergeAll_eq_foldl]
  generalize ({} : Report) = start
  generalize program.procedures.toList = procs at each ⊢
  induction each generalizing start with
  | nil => rfl
  | @cons proc more _ _ checked _ ih =>
    rw [Procedure.verify_eq_fill] at checked
    have here : start.fill config proc.sites = .ok (start.merge config.cap more.diagnostics) :=
      Report.fill_capped (.inr rfl) start checked
    rw [flatMap_cons, Report.fill_append, here]
    exact ih _

theorem capped_report_is_front (config : CheckConfig) (limit : Nat) (limited : 0 < limit) :
    (∀ (proc : Procedure) (full : Report), proc.verify { config with cap := 0 } = .ok full →
        proc.verify { config with cap := limit } = .ok ⟨full.diagnostics.take limit⟩)
      ∧ ∀ (program : Program) (full : Report), program.verify { config with cap := 0 } = .ok full →
        program.verify { config with cap := limit } = .ok ⟨full.diagnostics.take limit⟩ := by
  have front (full : Report) : Report.merge {} limit full.diagnostics = ⟨full.diagnostics.take limit⟩ := by
    simp [Report.merge_eq, Nat.pos_iff_ne_zero.mp limited]
  have cut {sites : List CallSite} {full : Report} (done : Report.fill { config with cap := 0 } {} sites = .ok full) :
      Report.fill { config with cap := limit } {} sites = .ok ⟨full.diagnostics.take limit⟩ := by
    have capped := @Report.fill_capped 0 {} { config with cap := limit } _ _ (.inl rfl) {} done
    rwa [front, front, List.take_nil] at capped
  have perProcedure (proc : Procedure) (full : Report) (done : proc.verify { config with cap := 0 } = .ok full) :
      proc.verify { config with cap := limit } = .ok ⟨full.diagnostics.take limit⟩ := by
    rw [Procedure.verify_eq_fill] at done ⊢
    exact cut done
  refine ⟨perProcedure, fun program full done => ?_⟩
  have returns : ∃ report, program.verify { config with cap := limit } = .ok report := by
    have each := done
    simp only [Program.verify, except_bind_ok_iff, mapM_except_ok_iff] at each
    obtain ⟨fulls, each, _⟩ := each
    refine bind_succeeds (mapM_succeeds fun proc inside => ?_) fun _ _ => ⟨_, rfl⟩
    obtain ⟨report, _, checked⟩ := forall₂_partner each inside
    exact ⟨_, perProcedure proc report checked⟩
  obtain ⟨report, capped⟩ := returns
  rw [capped]
  exact (Program.fill_of_verify capped).symm.trans (cut (Program.fill_of_verify done))

-- A call that is not materialized, then one whose second stack slot reaches into the third.
def callerWithUnlowered : Procedure where
  name := "caller"
  nodes := (callerWithSlots []).nodes
  locals := (callerWithSlots []).locals
  calls := #[{ target := .method "other", returnType := .void }, callWithSlots [16, 10]]

theorem warning_kept_before_overlap :
    ∃ full : Report, callerWithUnlowered.verify { CheckConfig.ofLevel .full with cap := 0 } = .ok full
      ∧ full.diagnostics.map Diagnostic.code = [.unloweredCall, .overlappingStackSlots]
      ∧ callerWithUnlowered.verify { CheckConfig.ofLevel .full with cap := 1 }
        = .ok ⟨full.diagnostics.take 1⟩ := by
  obtain ⟨full, done, codes⟩ := except_ok_of_any
    (callerWithUnlowered.verify { CheckConfig.ofLevel .full with cap := 0 })
    (fun full => full.diagnostics.map Diagnostic.code == [.unloweredCall, .overlappingStackSlots])
    (by decide +kernel)
  exact ⟨full, done, beq_iff_eq.mp codes,
    (capped_report_is_front (.ofLevel .full) 1 Nat.one_pos).1 callerWithUnlowered full done⟩

theorem Procedure.verifyCall_errors (done : proc.verifyCall config id = .ok report)
    (diagnostic : Diagnostic) (mem : diagnostic ∈ report.diagnostics) : diagnostic.isError = true := by
  simp only [verifyCall, Report.foldl_push, except_bind_ok_iff] at done
  obtain ⟨call, here, found, checked, done⟩ := done
  have listed : ∀ other ∈ (Report.merge {} config.cap (found.map (Located.toDiagnostic id))).diagnostics,
      other.isError = true := by
    intro other mem
    have inFound : other ∈ found.map (Located.toDiagnostic id) := by
      simp only [Report.merge_eq, nil_append] at mem
      split at mem
      · exact mem
      · exact mem_of_mem_take mem
    obtain ⟨_, _, rfl⟩ := mem_map.mp inFound
    rfl
  split at done
  · cases done
    exact listed diagnostic mem
  · rename_i first rest cut
    rw [cut] at listed
    simp only [except_bind_ok_iff, except_pure_ok_iff] at done
    obtain ⟨table, _, rfl⟩ := done
    rcases mem_cons.mp mem with rfl | later
    · exact listed first mem_cons_self
    · exact listed diagnostic (mem_cons_of_mem _ later)

namespace CallSite

variable {site : CallSite} {more : List Diagnostic}

theorem noted_cases (done : site.noted config = .ok more) :
    (site.Lowered ∧ (∀ sites, config.warnings (site :: sites) = config.warnings sites)
        ∧ (site.Passes config ↔ more = []) ∧ ∀ diagnostic ∈ more, diagnostic.isError = true)
      ∨ ¬ site.Lowered ∧ (∀ sites, config.warnings (site :: sites) = more.length + config.warnings sites)
        ∧ more.length ≤ 1 ∧ ∀ diagnostic ∈ more, diagnostic.isError = false := by
  simp only [noted, except_bind_ok_iff] at done
  obtain ⟨call, found, done⟩ := done
  have here := site.proc.call_ok_iff.mp found
  by_cases lowered : call.args.isMaterialized = true
  · simp only [lowered, if_true, except_bind_ok_iff, except_pure_ok_iff] at done
    obtain ⟨report, checked, rfl⟩ := done
    refine .inl ⟨⟨call, here, lowered⟩, fun sites => ?_, ?_, Procedure.verifyCall_errors checked⟩
    · simp [CheckConfig.warnings, isUnlowered, here, lowered]
    constructor
    · rintro ⟨other, same, isOk⟩
      cases checked.symm.trans same
      refine eq_nil_iff_forall_not_mem.mpr fun diagnostic mem => ?_
      simp only [Report.isOk, Bool.not_eq_true', any_eq_false] at isOk
      exact isOk diagnostic mem (Procedure.verifyCall_errors checked diagnostic mem)
    · intro none
      exact ⟨report, checked, by simp [Report.isOk, none]⟩
  · rw [if_neg lowered, except_pure_ok_iff] at done
    subst done
    refine .inr ⟨?_, fun sites => ?_, ?_, ?_⟩
    · rintro ⟨other, same, isLowered⟩
      cases here.symm.trans same
      exact lowered isLowered
    · by_cases wanted : config.unlowered = true
      · simp [CheckConfig.warnings, wanted, isUnlowered, here, lowered, Nat.add_comm]
      · simp [CheckConfig.warnings, wanted]
    · split <;> simp
    · split <;> simp [Procedure.unlowered, Diagnostic.isError]

end CallSite

theorem forall_places_cons {α : Type} {P : List α → α → Prop} {first : α} {rest : List α} :
    (∀ before item after, first :: rest = before ++ item :: after → P before item)
      ↔ P [] first ∧ ∀ before item after, rest = before ++ item :: after → P (first :: before) item := by
  constructor
  · intro all
    exact ⟨all [] first rest rfl, fun before item after split =>
      all (first :: before) item after (by rw [split, cons_append])⟩
  · rintro ⟨here, later⟩ before item after split
    rcases cons_eq_append_iff.mp split with ⟨rfl, same⟩ | ⟨front, rfl, same⟩
    · cases same
      exact here
    · exact later front item after same

namespace Report

theorem isOk_iff : report.isOk = true ↔ ∀ diagnostic ∈ report.diagnostics, diagnostic.isError = false := by
  simp [isOk]

-- As long as there is no error, the report holds nothing but warnings, so its length tells whether
-- the next call is still looked at.
theorem fill_isOk (good : report.isOk = true) (done : report.fill config sites = .ok final) :
    final.isOk = true ↔ ∀ before site after, sites = before ++ site :: after → site.Lowered → site.Passes config
        ∨ config.cap ≠ 0 ∧ config.cap ≤ report.diagnostics.length + config.warnings before := by
  induction sites generalizing report with
  | nil =>
    cases done
    exact iff_of_true good fun before site after split => by simp at split
  | cons site rest ih =>
    rw [fill] at done
    split at done
    next full =>
      cases done
      obtain ⟨limited, long⟩ := isFull_iff.mp full
      exact iff_of_true good fun _ _ _ _ _ => .inr ⟨limited, by omega⟩
    next room =>
      obtain ⟨more, noted, later⟩ := except_bind_ok_iff.mp done
      obtain ⟨count, kept⟩ := merge_of_room room more
      rw [forall_places_cons]
      rcases site.noted_cases noted with ⟨lowered, silent, passes, errors⟩ | ⟨unlowered, counted, one, warnings⟩
      · simp only [silent]
        cases more with
        | nil =>
          rw [take_nil, append_nil] at kept
          rw [ih (isOk_iff.mpr (kept ▸ isOk_iff.mp good)) later, kept]
          exact (and_iff_right fun _ => .inl (passes.mpr rfl)).symm
        | cons first others =>
          refine iff_of_false (fun isOk => ?_) fun all => ?_
          · obtain ⟨rest, grown⟩ := fill_grows later
            have mem : first ∈ final.diagnostics := by simp [grown, kept]
            exact Bool.false_ne_true
              ((isOk_iff.mp isOk first mem).symm.trans (errors first mem_cons_self))
          · rcases all.1 lowered with passed | crowded
            · exact cons_ne_nil _ _ (passes.mp passed)
            · exact room (isFull_iff.mpr (by simpa [CheckConfig.warnings] using crowded))
      · rw [take_of_length_le (by omega)] at kept
        have stillGood : (report.merge config.cap more).isOk = true := by
          rw [isOk_iff] at good ⊢
          intro diagnostic mem
          rw [kept] at mem
          exact (mem_append.mp mem).elim (good diagnostic) (warnings diagnostic)
        rw [ih stillGood later, kept, length_append]
        simp only [counted, Nat.add_assoc]
        exact (and_iff_right fun lowered => absurd lowered unlowered).symm

theorem fill_succeeds (report : Report)
    (each : ∀ site ∈ sites, ∃ more, site.noted config = .ok more) : ∃ final, report.fill config sites = .ok final := by
  induction sites generalizing report with
  | nil => exact ⟨report, rfl⟩
  | cons site rest ih =>
    obtain ⟨here, later⟩ := forall_mem_cons.mp each
    rw [fill]
    split
    · exact ⟨report, rfl⟩
    · exact bind_succeeds here fun _ _ => ih _ later

end Report

theorem Procedure.verify_succeeds (proc : Procedure)
    (each : ∀ site ∈ proc.sites, site.Lowered → ∃ report, site.proc.verifyCall config site.id = .ok report) :
    ∃ report, proc.verify config = .ok report := by
  rw [verify_eq_fill]
  refine Report.fill_succeeds {} fun site mem => ?_
  obtain ⟨id, valid, rfl⟩ := mem_map.mp mem
  have here := Array.getElem?_eq_getElem (mem_range.mp valid)
  refine bind_succeeds ⟨_, proc.call_ok_iff.mpr here⟩ fun call found => ?_
  split
  next lowered =>
    exact bind_succeeds (each _ mem ⟨call, proc.call_ok_iff.mp found, lowered⟩) fun _ _ => ⟨_, rfl⟩
  next => exact ⟨_, rfl⟩

-- A broken call goes unreported exactly if the calls in front of it give as many warnings as the
-- report can hold.
theorem passing_report_iff (config : CheckConfig) :
    (∀ (proc : Procedure) (report : Report), proc.verify config = .ok report →
        (report.isOk = true ↔ ∀ before site after, proc.sites = before ++ site :: after → site.Lowered →
          site.Passes config ∨ config.cap ≠ 0 ∧ config.cap ≤ config.warnings before))
      ∧ (∀ (program : Program) (report : Report), program.verify config = .ok report →
        (report.isOk = true ↔ ∀ before site after, program.sites = before ++ site :: after → site.Lowered →
          site.Passes config ∨ config.cap ≠ 0 ∧ config.cap ≤ config.warnings before))
      ∧ ∀ program : Program, (∀ site ∈ program.sites, site.Lowered → site.Passes config) →
        ∃ report, program.verify config = .ok report ∧ report.isOk = true := by
  have exact_ {sites : List CallSite} {report : Report} (done : Report.fill config {} sites = .ok report) :
      report.isOk = true ↔ ∀ before site after, sites = before ++ site :: after → site.Lowered →
        site.Passes config ∨ config.cap ≠ 0 ∧ config.cap ≤ config.warnings before := by
    simpa using Report.fill_isOk rfl done
  refine ⟨fun proc report done => exact_ (proc.verify_eq_fill ▸ done),
    fun program report done => exact_ (Program.fill_of_verify done), fun program passes => ?_⟩
  obtain ⟨report, done⟩ : ∃ report, program.verify config = .ok report := by
    refine bind_succeeds (mapM_succeeds fun proc inside => ?_) fun _ _ => ⟨_, rfl⟩
    refine proc.verify_succeeds fun site within lowered => ?_
    obtain ⟨report, checked, _⟩ := passes site (List.mem_flatMap.mpr ⟨proc, inside, within⟩) lowered
    exact ⟨report, checked⟩
  refine ⟨report, done, (exact_ (Program.fill_of_verify done)).mpr fun before site after split lowered => ?_⟩
  exact .inl (passes site (split ▸ List.mem_append_right before List.mem_cons_self) lowered)

theorem overlap_reported_behind_warning :
    ∃ report : Report, callerWithUnlowered.verify { CheckConfig.ofLevel .full with cap := 2 } = .ok report
      ∧ report.isOk = false
      ∧ ∃ (before : List CallSite) (site : CallSite), before ++ [site] <+: callerWithUnlowered.sites
        ∧ ¬ site.Passes { CheckConfig.ofLevel .full with cap := 2 }
        ∧ CheckConfig.warnings { CheckConfig.ofLevel .full with cap := 2 } before < 2 := by
  obtain ⟨report, done, failed⟩ := except_ok_of_any
    (callerWithUnlowered.verify { CheckConfig.ofLevel .full with cap := 2 }) (fun report => !report.isOk)
    (by decide +kernel)
  have broken : report.isOk = false := by simpa using failed
  refine ⟨report, done, broken, ?_⟩
  by_contra none
  refine Bool.false_ne_true (broken.symm.trans (((passing_report_iff _).1 _ _ done).mpr ?_))
  intro before site after split _
  by_contra hidden
  obtain ⟨fails, early⟩ := not_or.mp hidden
  exact none ⟨before, site, ⟨after, by simp [split]⟩, fails,
    Nat.lt_of_not_le fun crowded => early ⟨Nat.succ_ne_zero 1, crowded⟩⟩

theorem warning_hides_overlap :
    ∃ report : Report,
      callerWithUnlowered.verify { CheckConfig.ofLevel .full with cap := 1 } = .ok report
        ∧ report.isOk = true
        ∧ ∃ broken : Report, callerWithUnlowered.verifyCall { CheckConfig.ofLevel .full with cap := 1 } 1 = .ok broken
          ∧ broken.isOk = false := by
  obtain ⟨report, done, isOk⟩ := except_ok_of_any
    (callerWithUnlowered.verify { CheckConfig.ofLevel .full with cap := 1 }) Report.isOk (by decide +kernel)
  obtain ⟨broken, checked, failed⟩ := except_ok_of_any
    (callerWithUnlowered.verifyCall { CheckConfig.ofLevel .full with cap := 1 } 1) (fun report => !report.isOk)
    (by decide +kernel)
  exact ⟨report, done, isOk, broken, checked, by simpa using failed⟩

end CallLowering
