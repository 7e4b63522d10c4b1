import Mathlib.Data.List.TakeWhile
import Valuation.Processor
import Valuation.Proofs.ResultModel

/-!
# Who sees what

Filtering a model comes to the targets that the model mentions one by one, those of values first, then those of
failures, then those of market data. It asks about each target once, when it first comes to it, and keeps what is
about the targets that are granted then (`filter_entitlement`). What the source answers later, or would answer
about a target that the model does not mention, does not matter.
-/
namespace Valuation

/-! ## Filtering with effects -/

section
variable {α σ : Type}

theorem run_bind_of_run {β : Type} {x : StateM σ α} {f : α → StateM σ β} {a : α} {q q' : σ}
    (h : x.run q = (a, q')) : (x >>= f).run q = (f a).run q' := by
  rw [StateT.run_bind, h]
  rfl

theorem run_filterAuxM {f : α → StateM σ Bool} {p : α → Bool} {I : List α → σ → Prop} {rest seen : List α}
    (hstep : ∀ before x q, before ++ [x] <+: seen ++ rest → I before q →
      ∃ q', (f x).run q = (p x, q') ∧ I (before ++ [x]) q')
    (acc : List α) {q : σ} (hq : I seen q) :
    ∃ q', (List.filterAuxM f rest acc).run q = ((rest.filter p).reverse ++ acc, q') ∧ I (seen ++ rest) q' := by
  induction rest generalizing seen acc q with
  | nil => exact ⟨q, rfl, by rwa [List.append_nil]⟩
  | cons x rest ih =>
    have hsplit : seen ++ x :: rest = seen ++ [x] ++ rest := by simp
    rw [hsplit] at hstep ⊢
    obtain ⟨q₁, hx, hq₁⟩ := hstep seen x q (List.prefix_append ..) hq
    obtain ⟨q', hrest, hq'⟩ := ih hstep (cond (p x) (x :: acc) acc) hq₁
    refine ⟨q', ?_, hq'⟩
    rw [List.filterAuxM, StateT.run_bind, hx]
    refine hrest.trans ?_
    cases hp : p x <;> simp [hp]

/-- A test with effects filters like a plain one if it answers so while an invariant of the elements gone through
holds. -/
theorem run_filterM {f : α → StateM σ Bool} {p : α → Bool} {I : List α → σ → Prop} {xs : List α}
    (hstep : ∀ before x q, before ++ [x] <+: xs → I before q →
      ∃ q', (f x).run q = (p x, q') ∧ I (before ++ [x]) q')
    {q : σ} (hq : I [] q) : ∃ q', (xs.filterM f).run q = (xs.filter p, q') ∧ I xs q' := by
  obtain ⟨q', hrun, hq'⟩ : ∃ q', (List.filterAuxM f xs []).run q = ((xs.filter p).reverse ++ [], q') ∧ I xs q' :=
    run_filterAuxM hstep [] hq
  refine ⟨q', ?_, hq'⟩
  rw [List.filterM, StateT.run_bind, hrun, List.append_nil]
  exact congrArg (·, q') (List.reverse_reverse _)

theorem filterAuxM_pure {μ : Type → Type} [Monad μ] [LawfulMonad μ] (p : α → Bool) (xs acc : List α) :
    List.filterAuxM (m := μ) (fun x => pure (p x)) xs acc = pure ((xs.filter p).reverse ++ acc) := by
  induction xs generalizing acc with
  | nil => rfl
  | cons x xs ih =>
    rw [List.filterAuxM, pure_bind, ih]
    cases hp : p x <;> simp [hp]

end

/-! ## What is shown of a model -/

namespace ResultModel

/-- The targets of values, failures and market data, in this order, with repetitions. -/
def mentionedTargets (m : ResultModel) : List Target :=
  m.values.keys ++ m.failures.keys.map (·.target) ++ m.marketData.map (·.specification.target)

/-- All that a model says about some targets is shown of it as it is, and nothing else. -/
structure Shows (shown m : ResultModel) (granted : Target → Bool) : Prop where
  values : shown.values.toList = m.values.toList.filter fun e => granted e.1
  failures : shown.failures.toList = m.failures.toList.filter fun e => granted e.1.target
  marketData : shown.marketData = m.marketData.filter fun v => granted v.specification.target
  cycle : shown.cycle = m.cycle
  view : shown.view = m.view
  valuationTime : shown.valuationTime = m.valuationTime

/-- Two models say the same about some targets, and were made for the same cycle of the same view. -/
structure AgreeOn (m m' : ResultModel) (granted : Target → Bool) : Prop where
  values : ∀ t, granted t = true → m.values.get? t = m'.values.get? t
  failures : ∀ s, granted s.target = true → m.failures.get? s = m'.failures.get? s
  marketData : (m.marketData.filter fun v => granted v.specification.target) =
    m'.marketData.filter fun v => granted v.specification.target
  cycle : m.cycle = m'.cycle
  view : m.view = m'.view
  valuationTime : m.valuationTime = m'.valuationTime

/-- The entries of both tables stand in the order of their keys. -/
def InOrder (m : ResultModel) : Prop := m.values.Sorted ∧ m.failures.Sorted

theorem shows_retainTargets (m : ResultModel) (keep : Target → Bool) : (m.retainTargets keep).Shows m keep := by
  have hfilter : ∀ {α : Type} (p : α → Bool) (xs : List α),
      Id.run (xs.filterM fun x => pure (p x)) = xs.filter p := by
    intro α p xs
    rw [List.filterM, filterAuxM_pure]
    simp
  refine ⟨hfilter _ m.values.entries, hfilter _ m.failures.entries, hfilter _ m.marketData, rfl, rfl, rfl⟩

namespace Shows

variable {a b m m' : ResultModel} {granted granted' : Target → Bool}

theorem unique (ha : a.Shows m granted) (hb : b.Shows m granted) : a = b := by
  have hvalues := ha.values.trans hb.values.symm
  have hfailures := ha.failures.trans hb.failures.symm
  have hmarketData := ha.marketData.trans hb.marketData.symm
  have hcycle := ha.cycle.trans hb.cycle.symm
  have hview := ha.view.trans hb.view.symm
  have htime := ha.valuationTime.trans hb.valuationTime.symm
  obtain ⟨cycle, view, time, ⟨values⟩, ⟨failures⟩, marketData⟩ := a
  obtain ⟨cycle', view', time', ⟨values'⟩, ⟨failures'⟩, marketData'⟩ := b
  simp only [Table.toList] at hvalues hfailures hmarketData hcycle hview htime
  simp only [hvalues, hfailures, hmarketData, hcycle, hview, htime]

/-- Showing once more hides nothing more. -/
theorem again (h : a.Shows m granted) : a.Shows a granted where
  values := by simp [h.values]
  failures := by simp [h.failures]
  marketData := by simp [h.marketData]
  cycle := rfl
  view := rfl
  valuationTime := rfl

theorem congr (h : a.Shows m granted) (hgranted : ∀ t ∈ m.mentionedTargets, granted t = granted' t) :
    a.Shows m granted' := by
  simp only [mentionedTargets, List.mem_append, Table.keys, List.map_map, List.mem_map] at hgranted
  refine ⟨h.values.trans (List.filter_congr fun e he => hgranted _ (.inl (.inl ⟨e, he, rfl⟩))),
    h.failures.trans (List.filter_congr fun e he => hgranted _ (.inl (.inr ⟨e, he, rfl⟩))),
    h.marketData.trans (List.filter_congr fun v hv => hgranted _ (.inr ⟨v, hv, rfl⟩)), h.cycle, h.view,
    h.valuationTime⟩

/-- What is shown mentions nothing but granted targets. -/
theorem granted_of_mentioned (h : a.Shows m granted) {t : Target} (ht : t ∈ a.mentionedTargets) :
    granted t = true := by
  simp only [mentionedTargets, List.mem_append, Table.keys, List.map_map, List.mem_map] at ht
  rcases ht with (⟨e, he, rfl⟩ | ⟨e, he, rfl⟩) | ⟨v, hv, rfl⟩
  · have he : e ∈ a.values.toList := he
    rw [h.values] at he
    exact (List.mem_filter.1 he).2
  · have he : e ∈ a.failures.toList := he
    rw [h.failures] at he
    exact (List.mem_filter.1 he).2
  · rw [h.marketData] at hv
    exact (List.mem_filter.1 hv).2

/-- Models that say the same about the granted targets look the same. -/
theorem eq_of_agreeOn (h : a.Shows m granted) (h' : b.Shows m' granted) (hagree : m.AgreeOn m' granted)
    (hm : m.InOrder) (hm' : m'.InOrder) : a = b := by
  have hvalues := Table.filter_toList_congr hm.1 hm'.1 hagree.values
  have hfailures := Table.filter_toList_congr (p := fun s => granted s.target) hm.2 hm'.2 hagree.failures
  refine h.unique ⟨h'.values.trans hvalues.symm, h'.failures.trans hfailures.symm,
    h'.marketData.trans hagree.marketData.symm, h'.cycle.trans hagree.cycle.symm, h'.view.trans hagree.view.symm,
    h'.valuationTime.trans hagree.valuationTime.symm⟩

end Shows

theorem run_retainTargetsM {σ : Type} {keep : Target → StateM σ Bool} (m : ResultModel) {q q₁ q₂ q₃ : σ}
    {values : List (Target × Table String ComputedValue)} {failures : List (Specification × FailureReason)}
    {marketData : List ComputedValue} (hvalues : (m.values.entries.filterM fun e => keep e.1).run q = (values, q₁))
    (hfailures : (m.failures.entries.filterM fun e => keep e.1.target).run q₁ = (failures, q₂))
    (hmarketData : (m.marketData.filterM fun v => keep v.specification.target).run q₂ = (marketData, q₃)) :
    (m.retainTargetsM keep).run q = ({ m with values := ⟨values⟩, failures := ⟨failures⟩, marketData }, q₃) := by
  have hvalues : (m.values.filterKeysM keep).run q = (⟨values⟩, q₁) := run_bind_of_run hvalues
  have hfailures : (m.failures.filterKeysM fun s => keep s.target).run q₁ = (⟨failures⟩, q₂) :=
    run_bind_of_run hfailures
  exact (run_bind_of_run hvalues).trans ((run_bind_of_run hfailures).trans (run_bind_of_run hmarketData))

/-- The model of a run lists its entries in order if the failures of the run are. -/
theorem inOrder_build (cycle : CycleId) (time : Instant) (g : Graph) (c : ComputationCache)
    {failures : Table Specification FailureReason} (h : failures.Sorted) (options : ResultOptions) :
    (build cycle time g c failures options).InOrder := by
  refine ⟨(listed_build ..).1, ?_⟩
  rw [build_failures]
  exact h

end ResultModel

/-! ## Asking once -/

namespace Inquiry

/-- What a source answers about a target, when it has been asked about those before the target in a list. -/
def answerTo (source : EntitlementSource) (u : UserPrincipal) (asked : List Target) (t : Target) :
    Except ServiceError Bool :=
  source ((asked.takeWhile (· ≠ t)).map (⟨u, ·⟩)) ⟨u, t⟩

/-- Once some targets have come up, each of them has been asked about when it first did, and decided for good. -/
structure Knows (source : EntitlementSource) (u : UserPrincipal) (seen : List Target) (q : Inquiry) : Prop where
  asked : q.asked = seen.eraseDups
  nodup : q.asked.Nodup
  decisions : ∀ t, q.decisions.get? t =
    if t ∈ q.asked then some (grants (answerTo source u q.asked t)) else none

section
variable {source : EntitlementSource} {u : UserPrincipal}

theorem grants_eq (answer : Except ServiceError Bool) : grants answer = decide (answer = .ok true) := by
  unfold grants
  split
  · rfl
  · next h => exact (decide_eq_false h).symm

/-- What has been asked about after a target does not count. -/
theorem answerTo_append {asked : List Target} {t : Target} (ht : t ∈ asked) (more : List Target) :
    answerTo source u (asked ++ more) t = answerTo source u asked t := by
  have hlength : (asked.takeWhile (· ≠ t)).length ≠ asked.length := by
    intro hlength
    have hwhole := (List.takeWhile_prefix _).eq_of_length hlength
    simpa using List.takeWhile_eq_self_iff.1 hwhole t ht
  rw [answerTo, answerTo, List.takeWhile_append, if_neg hlength]

theorem answerTo_self {asked : List Target} {t : Target} (ht : t ∉ asked) :
    answerTo source u (asked ++ [t]) t = source (asked.map (⟨u, ·⟩)) ⟨u, t⟩ := by
  have hall : ∀ x ∈ asked, decide (x ≠ t) = true := fun x hx => decide_eq_true fun hxt => ht (hxt ▸ hx)
  rw [answerTo, List.takeWhile_append_of_pos hall]
  simp

theorem answerTo_mono {asked all : List Target} (h : asked <+: all) {t : Target} (ht : t ∈ asked) :
    answerTo source u all t = answerTo source u asked t := by
  obtain ⟨more, rfl⟩ := h
  exact answerTo_append ht more

theorem knows_empty (source : EntitlementSource) (u : UserPrincipal) : Knows source u [] {} :=
  ⟨rfl, List.nodup_nil, fun _ => rfl⟩

theorem Knows.mem_asked {seen : List Target} {q : Inquiry} (h : Knows source u seen q) {t : Target} :
    t ∈ q.asked ↔ t ∈ seen := by
  rw [h.asked, List.mem_eraseDups]

theorem eraseDups_mono {seen all : List Target} (h : seen <+: all) : seen.eraseDups <+: all.eraseDups := by
  obtain ⟨more, rfl⟩ := h
  rw [List.eraseDups_append]
  exact List.prefix_append ..

/-- A target that comes up is decided as it was, or else as the source answers now. -/
theorem Knows.ask {seen : List Target} {q : Inquiry} (h : Knows source u seen q) (t : Target) :
    ∃ q', (Inquiry.ask source u t).run q = (grants (answerTo source u (seen ++ [t]).eraseDups t), q') ∧
      Knows source u (seen ++ [t]) q' := by
  have happend : (seen ++ [t]).eraseDups = seen.eraseDups ++ ([t].removeAll seen).eraseDups :=
    List.eraseDups_append
  by_cases ht : t ∈ seen
  · have hsame : (seen ++ [t]).eraseDups = q.asked := by
      rw [happend, h.asked]
      simp [List.removeAll, ht]
    refine ⟨q, ?_, hsame.symm, h.nodup, h.decisions⟩
    have hdecided := h.decisions t
    rw [if_pos (h.mem_asked.2 ht)] at hdecided
    simp only [hsame, Inquiry.ask, StateT.run_bind, StateT.run_get, pure_bind, hdecided]
    rfl
  · have hnew : (seen ++ [t]).eraseDups = q.asked ++ [t] := by
      rw [happend, h.asked]
      simp [List.removeAll, ht, List.eraseDups_cons]
    have hnot : t ∉ q.asked := fun hmem => ht (h.mem_asked.1 hmem)
    have hundecided := h.decisions t
    rw [if_neg hnot] at hundecided
    refine ⟨⟨q.decisions.insert t (grants (answerTo source u (q.asked ++ [t]) t)), q.asked ++ [t]⟩, ?_,
      hnew.symm, List.nodup_append.2 ⟨h.nodup, by simp, ?_⟩, fun x => ?_⟩
    · simp only [hnew, answerTo_self hnot, Inquiry.ask, StateT.run_bind, StateT.run_get, pure_bind, hundecided]
      rfl
    · rintro x hx y hy rfl
      exact hnot (List.mem_singleton.1 hy ▸ hx)
    · rw [Table.get?_insert, h.decisions x]
      by_cases hx : t = x
      · subst hx
        simp
      · by_cases hasked : x ∈ q.asked
        · simp [hx, hasked, answerTo_append hasked]
        · simp [hx, Ne.symm hx, hasked]

/-- Elements are kept by what is answered about their targets, of all that come up. -/
theorem Knows.filterM {α : Type} {seen all : List Target} {q : Inquiry} (h : Knows source u seen q)
    (target : α → Target) {xs : List α} (hall : seen ++ xs.map target <+: all) :
    ∃ q', (xs.filterM fun x => Inquiry.ask source u (target x)).run q =
      (xs.filter fun x => grants (answerTo source u all.eraseDups (target x)), q') ∧
      Knows source u (seen ++ xs.map target) q' := by
  refine run_filterM (I := fun before q => Knows source u (seen ++ before.map target) q) ?_ (by simpa using h)
  intro before x q hbefore hq
  obtain ⟨q', hask, hq'⟩ := hq.ask (target x)
  have hmap : seen ++ (before ++ [x]).map target = seen ++ before.map target ++ [target x] := by simp
  refine ⟨q', hask.trans ?_, hmap ▸ hq'⟩
  have hprefix : seen ++ before.map target ++ [target x] <+: all := by
    rw [← hmap]
    exact ((List.prefix_append_right_inj seen).2 (hbefore.map target)).trans hall
  have hmem : target x ∈ (seen ++ before.map target ++ [target x]).eraseDups := by simp
  rw [answerTo_mono (eraseDups_mono hprefix) hmem]

end

end Inquiry

/-! ## Filtering a model -/

namespace PermissionProvider

open Inquiry

/-- What is shown of a model are the targets that the source grants when it is asked about each target that the
model mentions, once, in the order in which they come up. -/
theorem filter_entitlement (source : EntitlementSource) (u : UserPrincipal) (m : ResultModel) :
    (filter (.entitlement source) u m).2 = m.mentionedTargets.eraseDups ∧
      (filter (.entitlement source) u m).2.Nodup ∧
      (filter (.entitlement source) u m).1.Shows m
        fun t => answerTo source u (filter (.entitlement source) u m).2 t = .ok true := by
  have hkeys : m.mentionedTargets = m.values.entries.map (·.1) ++ m.failures.entries.map (·.1.target) ++
      m.marketData.map (·.specification.target) := by
    simp [ResultModel.mentionedTargets, Table.keys]
  have hvalues : [] ++ m.values.entries.map (·.1) <+: m.mentionedTargets := by
    rw [hkeys, List.nil_append, List.append_assoc]
    exact List.prefix_append ..
  have hfailures : [] ++ m.values.entries.map (·.1) ++ m.failures.entries.map (·.1.target) <+:
      m.mentionedTargets := by
    rw [hkeys, List.nil_append]
    exact List.prefix_append ..
  have hall : [] ++ m.values.entries.map (·.1) ++ m.failures.entries.map (·.1.target) ++
      m.marketData.map (·.specification.target) = m.mentionedTargets := by
    rw [hkeys, List.nil_append]
  have hmarketData : [] ++ m.values.entries.map (·.1) ++ m.failures.entries.map (·.1.target) ++
      m.marketData.map (·.specification.target) <+: m.mentionedTargets := by
    rw [hall]
  obtain ⟨q₁, hrun₁, h₁⟩ := (knows_empty source u).filterM
    (fun e : Target × Table String ComputedValue => e.1) hvalues
  obtain ⟨q₂, hrun₂, h₂⟩ := h₁.filterM (fun e : Specification × FailureReason => e.1.target) hfailures
  obtain ⟨q₃, hrun₃, h₃⟩ := h₂.filterM (fun v : ComputedValue => v.specification.target) hmarketData
  rw [hall] at h₃
  have hfilter : filter (.entitlement source) u m = (_, q₃.asked) :=
    congrArg (fun r => (r.1, r.2.asked)) (m.run_retainTargetsM hrun₁ hrun₂ hrun₃)
  rw [hfilter, ← h₃.asked]
  simp only [← grants_eq]
  exact ⟨trivial, h₃.nodup, rfl, rfl, rfl, rfl, rfl, rfl⟩

/-- A source whose answers do not change hides nothing more when it is asked again. -/
theorem filter_idem (answer : UserPrincipal → Target → Except ServiceError Bool) (u : UserPrincipal)
    (m : ResultModel) :
    let shown := (filter (.entitlement (.fixed answer)) u m).1
    (filter (.entitlement (.fixed answer)) u shown).1 = shown := by
  obtain ⟨-, -, hshows⟩ := filter_entitlement (.fixed answer) u m
  obtain ⟨-, -, hagain⟩ := filter_entitlement (.fixed answer) u (filter (.entitlement (.fixed answer)) u m).1
  exact hagain.unique hshows.again

end PermissionProvider

/-! ## What clients get -/

namespace Processor

variable {r : Processor} {id : ClientId} {m : ResultModel} {asked : List Target}

theorem permission_of_build {config : EngineConfig} {repository : Option FunctionRepository}
    {executor : Option Executor} {source : EntitlementSource} {now : Instant}
    (hconfig : config.permission = .entitlement)
    (h : build config repository executor none (some source) now = .ok r) : r.permission = .entitlement source := by
  simp only [build, hconfig, PermissionProvider.ofPolicy] at h
  split at h
  · cases repository with
    | none => cases h
    | some repository =>
      cases executor with
      | some executor =>
        cases h
        rfl
      | none =>
        obtain ⟨_, -, h⟩ := bind_eq_ok.1 h
        obtain ⟨_, -, h⟩ := bind_eq_ok.1 h
        cases h
        rfl
  · cases h

/-- What a client gets of a cycle has been filtered for its user. -/
theorem filter_of_clientResult {cycle : CycleId} (h : r.clientResult id cycle = .ok (some (m, asked))) :
    ∃ c whole, r.client id = .ok c ∧ r.permission.filter c.user whole = (m, asked) := by
  obtain ⟨c, hc, h⟩ := bind_eq_ok.1 h
  obtain ⟨k, -, h⟩ := bind_eq_ok.1 h
  obtain ⟨whole, -, hwhole⟩ := Option.map_eq_some_iff.1 (Except.ok.inj h)
  exact ⟨c, whole, hc, hwhole⟩

theorem filter_of_latestClientResult (h : r.latestClientResult id = .ok (some (m, asked))) :
    ∃ c whole, r.client id = .ok c ∧ r.permission.filter c.user whole = (m, asked) := by
  obtain ⟨c, hc, h⟩ := bind_eq_ok.1 h
  cases hattached : c.attached with
  | none =>
    rw [hattached] at h
    cases h
  | some p =>
    rw [hattached] at h
    obtain ⟨p, -, h⟩ := bind_eq_ok.1 h
    obtain ⟨k, -, h⟩ := Option.bind_eq_some_iff.1 (Except.ok.inj h)
    obtain ⟨whole, -, hwhole⟩ := Option.map_eq_some_iff.1 h
    exact ⟨c, whole, hc, hwhole⟩

end Processor

namespace PermissionProvider

open Inquiry

/-- Whether a source says yes about a target when a model is filtered. -/
def entitles (source : EntitlementSource) (u : UserPrincipal) (m : ResultModel) (t : Target) : Bool :=
  answerTo source u (filter (.entitlement source) u m).2 t = .ok true

/-- A provider that asks a source shows, of a model, all that is about the targets which the source says yes to, and
asks about each target once. So users cannot tell models apart that differ on other targets only, and clients of a
processor with such a provider get nothing about these. -/
theorem shows_entitled_only (source : EntitlementSource) :
    (∀ u m, (filter (.entitlement source) u m).1.Shows m (entitles source u m) ∧
      (filter (.entitlement source) u m).2 = m.mentionedTargets.eraseDups ∧
      (filter (.entitlement source) u m).2.Nodup) ∧
    (∀ answer, source = .fixed answer → ∀ u m,
      (filter (.entitlement source) u (filter (.entitlement source) u m).1).1 =
        (filter (.entitlement source) u m).1) ∧
    (∀ u m m' entitled, (∀ t ∈ m.mentionedTargets, entitles source u m t = entitled t) →
      (∀ t ∈ m'.mentionedTargets, entitles source u m' t = entitled t) → m.AgreeOn m' entitled → m.InOrder →
      m'.InOrder → (filter (.entitlement source) u m).1 = (filter (.entitlement source) u m').1) ∧
    (∀ config repository executor now r, config.permission = .entitlement →
      Processor.build config repository executor none (some source) now = .ok r →
      r.permission = .entitlement source) ∧
    ∀ (r : Processor) id shown asked, r.permission = .entitlement source →
      (∃ cycle, r.clientResult id cycle = .ok (some (shown, asked))) ∨
        r.latestClientResult id = .ok (some (shown, asked)) →
      ∃ c m, r.client id = .ok c ∧ filter (.entitlement source) c.user m = (shown, asked) ∧
        ∀ t ∈ shown.mentionedTargets, entitles source c.user m t = true := by
  have hshows := fun u m => (filter_entitlement source u m).2.2
  refine ⟨fun u m => ?_, ?_, fun u m m' entitled hm hm' hagree horder horder' => ?_,
    fun config repository executor now r hconfig => Processor.permission_of_build hconfig,
    fun r id shown asked hpermission hresult => ?_⟩
  · obtain ⟨hasked, hnodup, hshown⟩ := filter_entitlement source u m
    exact ⟨hshown, hasked, hnodup⟩
  · rintro answer rfl u m
    exact filter_idem answer u m
  · exact ((hshows u m).congr hm).eq_of_agreeOn ((hshows u m').congr hm') hagree horder horder'
  · obtain ⟨c, m, hc, hfilter⟩ : ∃ c m, r.client id = .ok c ∧ r.permission.filter c.user m = (shown, asked) :=
      hresult.elim (fun ⟨_, h⟩ => Processor.filter_of_clientResult h) Processor.filter_of_latestClientResult
    rw [hpermission] at hfilter
    refine ⟨c, m, hc, hfilter, fun t ht => (hshows c.user m).granted_of_mentioned ?_⟩
    rwa [hfilter]

theorem demo_shows_entitled_only :
    (∀ u, (filter (.entitlement Demo.confidential) u (filter (.entitlement Demo.confidential) u
        (Demo.published (.text "secret"))).1).1 =
      (filter (.entitlement Demo.confidential) u (Demo.published (.text "secret"))).1) ∧
    (∀ u, (filter (.entitlement Demo.confidential) u (Demo.published (.text "secret"))).1 =
      (filter (.entitlement Demo.confidential) u (Demo.published (.text "another"))).1) ∧
    (∃ repository r, Demo.repository = .ok repository ∧
      Processor.build { permission := .entitlement } (some repository) none none (some Demo.confidential) default =
        .ok r ∧ r.permission = .entitlement Demo.confidential) ∧
    ∃ shown asked, Demo.observed.clientResult ⟨"client"⟩ ⟨"cycle"⟩ = .ok (some (shown, asked)) ∧
      asked.length = 3 ∧ shown.mentionedTargets = [.position "P1", .position "P1"] ∧
      ∃ c m, Demo.observed.client ⟨"client"⟩ = .ok c ∧
        filter (.entitlement Demo.confidential) c.user m = (shown, asked) ∧
        ∀ t ∈ shown.mentionedTargets, entitles Demo.confidential c.user m t = true := by
  obtain ⟨hfilter, hidem, hagree, hbuild, hclient⟩ := shows_entitled_only Demo.confidential
  refine ⟨fun u => hidem _ rfl u _, fun u => ?_, ?_, ?_⟩
  · have hother : ∀ t, decide (Demo.confidential [] ⟨u, t⟩ = .ok true) = true → t ≠ .position "P2" := by
      rintro t ht rfl
      simp [Demo.confidential, EntitlementSource.fixed, Target.position] at ht
    refine hagree u _ _ (fun t => Demo.confidential [] ⟨u, t⟩ = .ok true) (fun _ _ => rfl) (fun _ _ => rfl)
      ⟨fun t ht => ?_, fun _ _ => rfl, rfl, rfl, rfl, rfl⟩ ⟨Table.sorted_ofList _, Table.sorted_ofList _⟩
      ⟨Table.sorted_ofList _, Table.sorted_ofList _⟩
    simp [Demo.published, Table.ofList, Table.insertAll, Ne.symm (hother t ht)]
  · obtain ⟨repository, hrepository, -⟩ := Demo.repository_eq_ok
    obtain ⟨r, hr⟩ : ∃ r, Processor.build { permission := .entitlement } (some repository) none none
        (some Demo.confidential) default = .ok r := ⟨_, rfl⟩
    exact ⟨repository, r, hrepository, hr, hbuild _ _ _ _ r rfl hr⟩
  · exact ⟨_, _, rfl, by decide, by decide, hclient _ _ _ _ rfl (.inl ⟨⟨"cycle"⟩, rfl⟩)⟩

end PermissionProvider
end Valuation
