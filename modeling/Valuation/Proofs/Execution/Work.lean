import Valuation.Execution.Strategy
import Valuation.Proofs.Execution.Journal

/-!
# Computing, writing and ending a node

The work on a node that is running may be spread over the moments of a run: computing the node calls its
function (`Coherent.compute`), writing stores what the node yields (`Coherent.write`), and ending it settles
the node and what waits behind it (`Coherent.finish`). Each step touches the outputs and the call of its own
node only (`Advance`), so that the nodes in flight do not get into each other's way: what has come of one
(`Due`) stays so while others are worked on.
-/
namespace Valuation
namespace Run

/-! ## What has come of a node -/

/-- Nothing has come of a node yet. -/
structure Untouched (g : Graph) (r : Run) (i : Nat) : Prop where
  fresh : ∀ t ∈ g.outputsOf i, r.cache.get? t = none
  uncalled : ∀ v ∈ r.journal, v.node ≠ i

/-- What is left of a node's result when nothing of it is left to write. -/
inductive Written (g : Graph) (s : Snapshot) (r : Run) (i : Nat) :
    Except FailureReason (List ComputedValue) → Prop
  | failed {reason : FailureReason} (hverdict : g.evaluate s i = .failed reason) :
      Written g s r i (.error reason)
  | cached (hok : (g.evaluate s i).isOk = true)
      (hcached : ∀ t v, (g.evaluate s i).value? t = some v → r.cache.get? t = some v) :
      Written g s r i (.ok [])

/-- What has come of a node: the result that the graph means for it, not written yet, or what writing it
leaves. -/
inductive Due (g : Graph) (s : Snapshot) (r : Run) (i : Nat)
    (result : Except FailureReason (List ComputedValue)) : Prop
  | computed (hverdict : g.evaluate s i = .ofExcept result)
      (hfresh : ∀ t ∈ g.outputsOf i, r.cache.get? t = none)
  | written (h : Written g s r i result)

/-! ## Steps -/

/-- Nothing of a node is called, written or lost. -/
structure LeavesAlone (g : Graph) (i : Nat) (r r' : Run) : Prop where
  outputs : ∀ t ∈ g.outputsOf i, r'.cache.get? t = r.cache.get? t
  calls : ∀ v ∈ r'.journal, v.node = i → v ∈ r.journal
  cached : ∀ t v, r.cache.get? t = some v → r'.cache.get? t = some v

/-- A run goes on with the work on one node. -/
structure Advance (g : Graph) (i : Nat) (r r' : Run) : Prop extends Later r r' where
  outputs : ∀ t ∉ g.outputsOf i, r'.cache.get? t = r.cache.get? t
  calls : ∀ v ∈ r'.journal, v ∈ r.journal ∨ v.node = i

/-- A moment of a run: the nodes and the cache agree with the meaning of the graph, the journal is in order,
and the flag is down unless it was up at the start or someone outside raises it. -/
structure Coherent (g : Graph) (s : Snapshot) (c : Control) (raised : Nat → Bool) (r : Run) : Prop
    extends Faithful g s r, Recorded g r where
  control : r.control = c ∨ (∃ k, raised k = true) ∧ r.control = { c with cancelled := true }

section
variable {g : Graph} {s : Snapshot} {c : Control} {raised : Nat → Bool} {r r' : Run} {i j : Nat}
  {result : Except FailureReason (List ComputedValue)}

theorem Advance.trans {r'' : Run} (h : Advance g i r r') (h' : Advance g i r' r'') : Advance g i r r'' := by
  refine ⟨h.toLater.trans h'.toLater, fun t ht => (h'.outputs t ht).trans (h.outputs t ht), fun v hv => ?_⟩
  rcases h'.calls v hv with hv | hv
  · exact h.calls v hv
  · exact .inr hv

theorem Later.advance (h : Later r r') (hkeeps : KeepsRecord r r') : Advance g i r r' := by
  refine ⟨h, fun t _ => by rw [hkeeps.cache], fun v hv => .inl ?_⟩
  exact hkeeps.journal ▸ hv

theorem Ended.statusOf_eq (h : Ended r r' i) (hj : r'.statusOf j = .notStarted ∨ r'.statusOf j = .running) :
    j ≠ i ∧ r'.statusOf j = r.statusOf j := by
  have hji : j ≠ i := by
    rintro rfl
    rcases h.ended with h | h
    · simp [h] at hj
    · simp [h] at hj
  refine ⟨hji, (h.others j hji).resolve_right ?_⟩
  rintro ⟨-, hfailed⟩
  simp [hfailed] at hj

/-- What still runs when a node has ended are the other nodes that ran. -/
theorem Ended.running_iff (h : Ended r r' i) : r'.statusOf j = .running ↔ j ≠ i ∧ r.statusOf j = .running := by
  constructor
  · intro hj
    obtain ⟨hji, hsame⟩ := h.statusOf_eq (.inr hj)
    exact ⟨hji, hsame ▸ hj⟩
  · rintro ⟨hji, hj⟩
    rcases h.others j hji with h | ⟨h, -⟩
    · exact h.trans hj
    · cases hj.symm.trans h

theorem Ended.later (h : Ended r r' i) (hi : r.statusOf i = .running)
    (hlength : r'.status.length = r.status.length) (hkeeps : KeepsRecord r r') : Later r r' := by
  refine ⟨hlength, fun j hj => ?_, fun j hj => .inr ?_, fun j hj => ?_, fun t v hv => ?_, fun hc => ?_⟩
  · rw [← (h.statusOf_eq (.inl hj)).2]
    exact hj
  · rw [← (h.statusOf_eq (.inr hj)).2]
    exact hj
  · have hji : j ≠ i := by
      rintro rfl
      cases hi.symm.trans hj
    rcases h.others j hji with h | ⟨h, -⟩
    · exact h.trans hj
    · cases hj.symm.trans h
  · rwa [hkeeps.cache]
  · rwa [hkeeps.isCancelled_eq]

theorem Changes.later (h : Changes r r' i .running) (hlength : r'.status.length = r.status.length)
    (hwaits : r.statusOf i = .notStarted) (hkeeps : KeepsRecord r r') : Later r r' := by
  refine ⟨hlength, fun j hj => ?_, fun j hj => ?_, fun j hj => ?_, fun t v hv => ?_, fun hc => ?_⟩
  · rw [h] at hj
    split at hj
    · cases hj
    · exact hj
  · rw [h] at hj
    split at hj
    · next hij => exact .inl (hij ▸ hwaits)
    · exact .inr hj
  · have hji : j ≠ i := by
      rintro rfl
      cases hwaits.symm.trans hj
    rwa [h.statusOf_of_ne hji]
  · rwa [hkeeps.cache]
  · rwa [hkeeps.isCancelled_eq]

/-! ## What starts -/

/-- No node starts between two moments: the same ones wait, but for those behind a failure. -/
def StartsNone (g : Graph) (s : Snapshot) (r r' : Run) : Prop :=
  ∀ j, g.evaluate s j ≠ .upstream → (r'.statusOf j = .notStarted ↔ r.statusOf j = .notStarted)

theorem startsNone_of_eq (hstatus : r'.status = r.status) : StartsNone g s r r' := by
  intro j _
  rw [statusOf, statusOf, hstatus]

theorem StartsNone.trans {r'' : Run} (h : StartsNone g s r r') (h' : StartsNone g s r' r'') :
    StartsNone g s r r'' :=
  fun j hj => (h' j hj).trans (h j hj)

/-- When a node ends no other one starts. -/
theorem Ended.startsNone (hg : g.Runnable) (hend : Ended r r' i) (hi : r.statusOf i = .running)
    (hgraph : r.graph = g) (h' : Tracks g s r') : StartsNone g s r r' := by
  refine fun j hown => ⟨fun hj => (hend.statusOf_eq (.inl hj)).2 ▸ hj, fun hj => ?_⟩
  have hji : j ≠ i := by
    rintro rfl
    cases hi.symm.trans hj
  rcases hend.others j hji with hsame | ⟨-, hfailed⟩
  · exact hsame.trans hj
  · obtain ⟨hifailed, hbehind⟩ := hend.behind j hji hj hfailed
    rw [hgraph] at hbehind
    exact absurd (g.evaluate_downstream hg (h'.failed i hifailed) hbehind) hown

/-- Nothing has failed before a node that has started. -/
theorem Tracks.evaluate_ne_upstream (h : Tracks g s r) (hg : g.Runnable)
    (hi : r.statusOf i = .running ∨ r.statusOf i = .executed) : g.evaluate s i ≠ .upstream := by
  have hbegun : r.statusOf i ≠ .notStarted := by rcases hi with hi | hi <;> simp [hi]
  obtain ⟨n, hn⟩ := h.exists_node hbegun
  cases hkind : n.kind with
  | marketData key =>
    rw [g.evaluate_marketData hg hn hkind]
    exact Verdict.ofExcept_ne_upstream _
  | function f =>
    rw [g.evaluate_call hg hn hkind fun j hj => h.executed j (h.begun i hi j hj)]
    exact Verdict.ofExcept_ne_upstream _

/-! ## Other nodes stay as they are -/

theorem Advance.leavesAlone (h : Advance g j r r') (hg : g.Runnable) (hij : i ≠ j) : LeavesAlone g i r r' := by
  refine ⟨fun t ht => h.outputs t fun htj => hij (hg.eq_of_mem_outputsOf ht htj), fun v hv hvi => ?_, h.cached⟩
  exact (h.calls v hv).resolve_right fun hvj => hij (hvi.symm.trans hvj)

theorem leavesAlone_of_eq (hcache : r'.cache = r.cache) (hjournal : r'.journal = r.journal) :
    LeavesAlone g i r r' := by
  refine ⟨fun t _ => by rw [hcache], fun v hv _ => ?_, fun t v hv => ?_⟩
  · exact hjournal ▸ hv
  · rwa [hcache]

section
variable (h : LeavesAlone g i r r')
include h

theorem LeavesAlone.untouched (hnone : Untouched g r i) : Untouched g r' i :=
  ⟨fun t ht => (h.outputs t ht).trans (hnone.fresh t ht),
    fun v hv hvi => hnone.uncalled v (h.calls v hv hvi) hvi⟩

theorem LeavesAlone.due (hdue : Due g s r i result) : Due g s r' i result := by
  cases hdue with
  | computed hverdict hfresh => exact .computed hverdict fun t ht => (h.outputs t ht).trans (hfresh t ht)
  | written hwritten =>
    cases hwritten with
    | failed hverdict => exact .written (.failed hverdict)
    | cached hok hcached => exact .written (.cached hok fun t v hv => h.cached t v (hcached t v hv))

end

/-- Nobody touches the flag from outside when nobody raises it. -/
theorem Coherent.control_eq (h : Coherent g s c raised r) (hraised : ∀ k, raised k = false) : r.control = c := by
  refine h.control.resolve_right ?_
  rintro ⟨⟨k, hk⟩, -⟩
  cases hk.symm.trans (hraised k)

/-- Nothing has come of a node that waits. -/
theorem Coherent.untouched (h : Coherent g s c raised r) (hg : g.Runnable) (hwaits : r.statusOf i = .notStarted) :
    Untouched g r i := by
  refine ⟨fun t ht => Option.eq_none_iff_forall_ne_some.2 fun v hv => ?_, h.toRecorded.uncalled hwaits⟩
  have hstarted := h.statusOf_of_cached hg hv ht
  simp [hwaits] at hstarted

/-- A node starts that nothing has come of. -/
theorem Coherent.begin (hg : g.Runnable) (h : Coherent g s c raised r) (hi : i < g.size)
    (hwaits : r.statusOf i = .notStarted) (hdeps : ∀ j ∈ g.dependenciesOf i, r.statusOf j = .executed)
    {ready : List Nat} (hsub : ∀ j ∈ ready, j ∈ r.ready)
    (hkeep : ∀ j ∈ r.ready, r.statusOf j = .notStarted → j = i ∨ j ∈ ready) :
    Coherent g s c raised ({ r with ready }.setStatus i .running) ∧
      Changes r ({ r with ready }.setStatus i .running) i .running ∧
      KeepsRecord r ({ r with ready }.setStatus i .running) ∧
      Untouched g ({ r with ready }.setStatus i .running) i := by
  have hfaithful := h.toFaithful.begin hi hwaits hdeps hsub hkeep
  have hst : Changes r ({ r with ready }.setStatus i .running) i .running :=
    changes_setStatus rfl (h.length_status ▸ hi) .running
  have hkeeps : KeepsRecord r ({ r with ready }.setStatus i .running) := ⟨rfl, rfl, rfl, rfl⟩
  have hlater := hst.later (hfaithful.length_status.trans h.length_status.symm) hwaits hkeeps
  have huntouched := h.untouched hg hwaits
  exact ⟨⟨hfaithful, h.toRecorded.keeps hlater hkeeps, h.control⟩, hst, hkeeps,
    huntouched.fresh, huntouched.uncalled⟩

/-! ## Computing -/

/-- A node that has started finds its inputs in the cache, and the same ones whenever it looks. -/
theorem Faithful.gatherInputs (hg : g.Runnable) (h : Faithful g s r) (hi : r.statusOf i = .running) {n : Node}
    (hn : g.node? i = some n) : n.gatherInputs r.cache = .ok (.ofList (n.inputValues (g.valueOf? s))) := by
  have hinput : ∀ t ∈ n.inputs, ∃ p, g.producerOf? t = some p ∧ r.statusOf p = .executed := by
    intro t ht
    obtain ⟨p, hp, -⟩ := hg.producer_before i n hn t ht
    exact ⟨p, hp, h.begun i (.inl hi) p ((hg.mem_dependenciesOf i p).2 ⟨n, hn, t, ht, hp⟩)⟩
  refine Node.gatherInputs_eq_ok (fun t ht => ?_) fun t ht => ?_
  · obtain ⟨p, hp, hexecuted⟩ := hinput t ht
    rw [Graph.valueOf?, Graph.verdictOf?, hp]
    refine Option.ext fun v => ⟨fun hv => ?_, h.cache_complete p t v hexecuted⟩
    obtain ⟨k, -, hkv⟩ := h.cache_sound t v hv
    obtain rfl : k = p := Option.some.inj ((g.producerOf?_of_value? hg hkv).symm.trans hp)
    exact hkv
  · obtain ⟨p, hp, hexecuted⟩ := hinput t ht
    exact (g.valueOf?_isSome_iff hg hp).2 (h.executed p hexecuted)

/-- Calling the function of a node is a call with the inputs that the graph means. -/
theorem Faithful.call (hg : g.Runnable) (h : Faithful g s r) (hi : r.statusOf i = .running) {n : Node}
    (hn : g.node? i = some n) {f : CalculationFunction} (hf : n.kind = .function f) {inputs : FunctionInputs}
    (hinputs : inputs = .ofList (n.inputValues (g.valueOf? s))) :
    ∃ call result, r.call i n f inputs = (r.note call, result) ∧ g.evaluate s i = .ofExcept result ∧
      ∀ v ∈ call, Called g r v ∧ v.node = i := by
  have hdeps := h.begun i (.inl hi)
  refine ⟨some ⟨i, f.id, n.target, inputs, f.execute n.target inputs n.outputs, r.cache⟩, _, rfl, ?_, ?_⟩
  · rw [hinputs]
    exact g.evaluate_call hg hn hf fun j hj => h.executed j (hdeps j hj)
  · rintro v ⟨⟩
    refine ⟨⟨⟨n, f, hn, hf, rfl, rfl, ?_, rfl⟩, by simp [hi], hdeps, fun t w => id⟩, rfl⟩
    rw [hinputs]
    exact h.gatherInputs hg hi hn

/-- A running node computes what the graph means for it, whether its inputs are given or looked up. -/
theorem Faithful.compute (hg : g.Runnable) (h : Faithful g s r) (hi : r.statusOf i = .running)
    {inputs : Option FunctionInputs} (hinputs : ∀ n given, g.node? i = some n → inputs = some given →
      given = .ofList (n.inputValues (g.valueOf? s))) :
    ∃ call result, r.compute i inputs = (r.note call, result) ∧ g.evaluate s i = .ofExcept result ∧
      ∀ v ∈ call, Called g r v ∧ v.node = i := by
  obtain ⟨n, hn⟩ := h.exists_node (i := i) (by simp [hi])
  unfold Run.compute
  rw [h.graph, hn, h.snapshot]
  dsimp only
  split
  · next key hkey => exact ⟨none, _, by rw [note_none], g.evaluate_marketData hg hn hkey, by simp⟩
  next f hf =>
  cases inputs with
  | some given => exact h.call hg hi hn hf (hinputs n given hn rfl)
  | none =>
    rw [h.gatherInputs hg hi hn]
    exact h.call hg hi hn hf rfl

theorem Coherent.compute (hg : g.Runnable) (h : Coherent g s c raised r) (hi : r.statusOf i = .running)
    (huntouched : Untouched g r i) {inputs : Option FunctionInputs}
    (hinputs : ∀ n given, g.node? i = some n → inputs = some given →
      given = .ofList (n.inputValues (g.valueOf? s))) :
    ∃ call result, r.compute i inputs = (r.note call, result) ∧ Coherent g s c raised (r.note call) ∧
      Advance g i r (r.note call) ∧ Due g s (r.note call) i result := by
  obtain ⟨call, result, heq, hverdict, hcall⟩ := h.toFaithful.compute hg hi hinputs
  refine ⟨call, result, heq, ⟨h.toFaithful.retold .., h.toRecorded.note fun v hv => ?_, h.control⟩,
    ⟨later_note r call, fun _ _ => rfl, fun v hv => ?_⟩, .computed hverdict huntouched.fresh⟩
  · obtain ⟨hcalled, hvi⟩ := hcall v hv
    exact ⟨hcalled, fun w hw => hvi ▸ huntouched.uncalled w hw⟩
  · refine (List.mem_append.1 hv).imp_right fun hv => (hcall v ?_).2
    exact Option.mem_toList.1 hv

/-! ## Writing -/

/-- The values of a running node are cached. -/
theorem Faithful.store (hg : g.Runnable) (h : Faithful g s r) (hi : r.statusOf i = .running)
    {cache : ComputationCache}
    (hcache : ∀ t, cache.get? t = ((g.evaluate s i).value? t).or (r.cache.get? t)) :
    Faithful g s { r with cache } := by
  refine ⟨⟨h.graph, h.snapshot, h.length_status, h.executed, h.failed, h.begun, h.pending, h.ready_sound,
    h.ready_complete, fun t v hv => ?_, fun k t v hk hkv => ?_, h.failure_sound, h.failure_complete⟩, h.waiting⟩
  · rcases Option.or_eq_some_iff.1 ((hcache t).symm.trans hv) with hv | ⟨-, hv⟩
    · exact ⟨i, .inl hi, hv⟩
    · exact h.cache_sound t v hv
  · refine (hcache t).trans (Option.or_eq_some_iff.2 (.inr ⟨?_, h.cache_complete k t v hk hkv⟩))
    refine Option.eq_none_iff_forall_ne_some.2 fun w hw => ?_
    obtain rfl := g.eq_of_value? hg hkv hw
    cases hi.symm.trans hk

/-- Writing what a node yields succeeds, and leaves nothing to write. -/
theorem Due.write (hg : g.Runnable) (hdue : Due g s r i result) :
    ∃ cache result', r.write result = ({ r with cache }, result') ∧ Written g s { r with cache } i result' ∧
      (∀ t, cache.get? t = ((g.evaluate s i).value? t).or (r.cache.get? t)) ∧
      ∀ t v, r.cache.get? t = some v → cache.get? t = some v := by
  have hfailed : ∀ reason, g.evaluate s i = .failed reason → ∃ cache result',
      r.write (.error reason) = ({ r with cache }, result') ∧ Written g s { r with cache } i result' ∧
        (∀ t, cache.get? t = ((g.evaluate s i).value? t).or (r.cache.get? t)) ∧
        ∀ t v, r.cache.get? t = some v → cache.get? t = some v := by
    intro reason hverdict
    exact ⟨r.cache, _, rfl, .failed hverdict, fun t => by rw [hverdict]; rfl, fun _ _ => id⟩
  cases hdue with
  | computed hverdict hfresh =>
    cases result with
    | error reason => exact hfailed reason hverdict
    | ok values =>
      obtain ⟨n, hn⟩ := g.node?_of_isOk (by rw [hverdict]; rfl)
      obtain ⟨hspec, hvalue⟩ := g.specifications_of_evaluate hg hn hverdict
      have hnew : ∀ v ∈ values, r.cache.contains v.specification = false := by
        intro v hv
        have hmem : v.specification ∈ n.outputs := hspec ▸ List.mem_map_of_mem hv
        rw [ComputationCache.contains_eq, hfresh _ (Graph.mem_outputsOf_iff.2 ⟨n, hn, hmem⟩)]
        rfl
      have hnodup : (values.map (·.specification)).Nodup := hspec ▸ hg.outputs_nodup i n hn
      have hwrite := writeOutputs_of_new 0 hnew hnodup hvalue
      have hlaw : ∀ t, (r.cache.withValues 0 values).get? t = ((g.evaluate s i).value? t).or (r.cache.get? t) := by
        rw [hverdict]
        exact ComputationCache.get?_withValues 0 hnodup
      refine ⟨_, .ok [], by rw [Run.write]; simp only [hwrite], .cached (by rw [hverdict]; rfl) ?_, hlaw, ?_⟩
      · intro t v hv
        exact (hlaw t).trans (by rw [hv]; rfl)
      · intro t v hv
        refine (hlaw t).trans (Option.or_eq_some_iff.2 (.inr ⟨?_, hv⟩))
        refine Option.eq_none_iff_forall_ne_some.2 fun w hw => ?_
        cases hv.symm.trans (hfresh t (g.mem_outputsOf_of_value? hg hw))
  | written h =>
    cases h with
    | failed hverdict => exact hfailed _ hverdict
    | cached hok hcached =>
      refine ⟨r.cache, _, rfl, .cached hok hcached, fun t => ?_, fun _ _ => id⟩
      cases hv : (g.evaluate s i).value? t with
      | none => rfl
      | some v => exact hcached t v hv

theorem Coherent.write (hg : g.Runnable) (h : Coherent g s c raised r) (hi : r.statusOf i = .running)
    (hdue : Due g s r i result) :
    ∃ cache result', r.write result = ({ r with cache }, result') ∧
      Coherent g s c raised { r with cache } ∧ Advance g i r { r with cache } ∧
      Written g s { r with cache } i result' := by
  obtain ⟨cache, result', heq, hwritten, hlaw, hgrows⟩ := hdue.write hg
  have hlater : Later r { r with cache } := ⟨rfl, fun _ => id, fun _ => .inr, fun _ => id, hgrows, id⟩
  refine ⟨cache, result', heq, ⟨h.toFaithful.store hg hi hlaw, h.toRecorded.later hlater rfl rfl, h.control⟩,
    ⟨hlater, fun t ht => ?_, fun v hv => .inl hv⟩, hwritten⟩
  have hnone : (g.evaluate s i).value? t = none :=
    Option.eq_none_iff_forall_ne_some.2 fun w hw => ht (g.mem_outputsOf_of_value? hg hw)
  rw [hlaw, hnone, Option.none_or]

/-! ## Ending -/

theorem Coherent.ended (h : Coherent g s c raised r) (hi : r.statusOf i = .running)
    (hfaithful : Faithful g s r') (hend : Ended r r' i) (hkeeps : KeepsRecord r r') :
    Coherent g s c raised r' ∧ Advance g i r r' := by
  have hlater := hend.later hi (hfaithful.length_status.trans h.length_status.symm) hkeeps
  refine ⟨⟨hfaithful, h.toRecorded.keeps hlater hkeeps, ?_⟩, hlater.advance hkeeps⟩
  rw [hkeeps.control]
  exact h.control

/-- A running node ends with what has come of it. -/
theorem Coherent.finish (hg : g.Runnable) (h : Coherent g s c raised r) (hi : r.statusOf i = .running)
    (hdue : Due g s r i result) :
    Coherent g s c raised (r.finish i result) ∧ Ended r (r.finish i result) i ∧
      Advance g i r (r.finish i result) := by
  obtain ⟨cache, result', heq, hstored, hstep, hwritten⟩ := h.write hg hi hdue
  have hend : ∀ r', Faithful g s r' → Ended { r with cache } r' i → KeepsRecord { r with cache } r' →
      Coherent g s c raised r' ∧ Ended r r' i ∧ Advance g i r r' := by
    intro r' hfaithful hend hkeeps
    obtain ⟨hcoherent, hadvance⟩ := hstored.ended hi hfaithful hend hkeeps
    exact ⟨hcoherent, ⟨hend.ended, hend.others, hend.behind⟩, hstep.trans hadvance⟩
  simp only [Run.finish, heq]
  cases hwritten with
  | failed hverdict =>
    obtain ⟨hfaithful, hended⟩ := hstored.toFaithful.fail hg hi hverdict
    exact hend _ hfaithful hended (keepsRecord_fail ..)
  | cached hok hcached =>
    obtain ⟨hfaithful, hended⟩ := hstored.toFaithful.complete hg hi hok hcached
    exact hend _ hfaithful hended (keepsRecord_complete ..)

/-- A running node that nothing has come of is computed and ends with that. -/
theorem Coherent.compute_finish (hg : g.Runnable) (h : Coherent g s c raised r) (hi : r.statusOf i = .running)
    (huntouched : Untouched g r i) {inputs : Option FunctionInputs}
    (hinputs : ∀ n given, g.node? i = some n → inputs = some given →
      given = .ofList (n.inputValues (g.valueOf? s)))
    {r₁ : Run} (heq : r.compute i inputs = (r₁, result)) :
    Coherent g s c raised (r₁.finish i result) ∧ Ended r (r₁.finish i result) i ∧
      Advance g i r (r₁.finish i result) := by
  obtain ⟨call, _, hcall, hcalled, hstep, hdue⟩ := h.compute hg hi huntouched hinputs
  cases hcall.symm.trans heq
  obtain ⟨hcoherent, hend, hadvance⟩ := hcalled.finish hg hi hdue
  exact ⟨hcoherent, ⟨hend.ended, hend.others, hend.behind⟩, hstep.trans hadvance⟩

theorem Coherent.execute (hg : g.Runnable) (h : Coherent g s c raised r) (hi : r.statusOf i = .running)
    (huntouched : Untouched g r i) :
    Coherent g s c raised (r.execute i) ∧ Ended r (r.execute i) i ∧ Advance g i r (r.execute i) := by
  have hinputs : ∀ n given, g.node? i = some n → none = some given →
      given = FunctionInputs.ofList (n.inputValues (g.valueOf? s)) := nofun
  exact h.compute_finish hg hi huntouched hinputs rfl

end

end Run
end Valuation
