import Valuation.Proofs.Graph.Reuse
import Valuation.Proofs.Latest

/-!
# Which graphs are kept

A compiler keeps the graphs that were inserted last, in the order in which they came, each under a key of its own, and
the queue lists just these keys (`Keeps`). A call of `compile` is a look-up and, if that finds nothing, a compilation
with an insertion at the end. Other calls may come in between, so a key may hold a graph by the time that another one
is ready for it, and what was kept may have been forgotten. A `Session` is any such sequence. After each, a key holds
a graph just if it was inserted so recently that it has not been driven out (`after_keeps_latest`).
-/
namespace Valuation
namespace GraphCompiler

/-! ## What is kept after some insertions -/

/-- Of the graphs that were inserted the latest are kept, under keys of their own. Graphs still to come differ from all
of them. -/
structure Keeps (c : GraphCompiler) (inserted : List (GraphKey × CompiledGraph)) : Prop where
  entries : c.entries = inserted.rtake c.capacity
  queue : c.queue = c.entries.map (·.1)
  nodup : c.queue.Nodup
  older : ∀ e ∈ inserted, e.2.serial < c.nextSerial

/-- A graph that has just been compiled, with its number. -/
def numbered (c : GraphCompiler) (graph : Graph) : CompiledGraph := ⟨c.nextSerial, graph⟩

/-- What a call has inserted: its own graph, if that is what it gives back. -/
def insertion (c : GraphCompiler) (k : GraphKey) (answer : CompiledGraph) : List (GraphKey × CompiledGraph) :=
  if answer.serial = c.nextSerial then [(k, answer)] else []

theorem insertion_numbered (c : GraphCompiler) (k : GraphKey) (graph : Graph) :
    c.insertion k (c.numbered graph) = [(k, c.numbered graph)] :=
  if_pos rfl

/-- A key was inserted with a graph, and since then others were, but fewer than there is room for. -/
def Recent (inserted : List (GraphKey × CompiledGraph)) (capacity : Nat) (k : GraphKey) (g : CompiledGraph) : Prop :=
  ∃ before after, inserted = before ++ (k, g) :: after ∧ k ∉ after.map (·.1) ∧ after.length < capacity

section
variable {c : GraphCompiler} {inserted : List (GraphKey × CompiledGraph)} {k : GraphKey} {g : CompiledGraph}

theorem find?_eq_none_iff : c.find? k = none ↔ k ∉ c.entries.map (·.1) := by
  unfold find?
  rw [Option.map_eq_none_iff, List.find?_eq_none]
  simp only [decide_eq_true_eq, List.mem_map, not_exists, not_and]

theorem find?_eq_some_iff (h : (c.entries.map (·.1)).Nodup) : c.find? k = some g ↔ (k, g) ∈ c.entries := by
  refine ⟨find?_mem, fun hmem => ?_⟩
  cases hfind : c.find? k with
  | none => exact absurd (List.mem_map.2 ⟨_, hmem, rfl⟩) (find?_eq_none_iff.1 hfind)
  | some g' =>
    have heq : (k, g') = (k, g) := List.inj_on_of_nodup_map h (find?_mem hfind) hmem rfl
    rw [(Prod.mk.inj heq).2]

/-- A key holds a graph just if it was inserted recently. -/
theorem Keeps.find?_iff (h : c.Keeps inserted) : c.find? k = some g ↔ Recent inserted c.capacity k g := by
  have hnodup : (c.entries.map (·.1)).Nodup := h.queue ▸ h.nodup
  rw [find?_eq_some_iff hnodup, h.entries, mem_rtake_iff]
  refine exists_congr fun before => exists_congr fun after => and_congr_right fun hsplit => ?_
  refine ⟨fun hfew => ⟨fun hmem => ?_, hfew⟩, And.right⟩
  -- If the key had been inserted again since, it would be kept twice.
  rw [h.entries, hsplit, rtake_append before ((k, g) :: after) hfew, List.map_append] at hnodup
  exact (List.nodup_cons.1 hnodup.of_append_right).1 hmem

theorem evict_map (capacity : Nat) {entries : List (GraphKey × CompiledGraph)} (h : (entries.map (·.1)).Nodup) :
    evict capacity (entries.map (·.1)) entries =
      ((entries.rtake capacity).map (·.1), entries.rtake capacity) := by
  induction entries with
  | nil => rw [List.rtake_nil, List.map_nil, evict]
  | cons e entries ih =>
    obtain ⟨hnot, hnodup⟩ := List.nodup_cons.1 h
    rw [List.map_cons, evict, List.length_map]
    split
    · next hfull =>
      have hothers : (e :: entries).filter (fun f => f.1 ≠ e.1) = entries := by
        rw [List.filter_cons_of_neg (by simp), List.filter_eq_self]
        intro f hf
        have hne : f.1 ≠ e.1 := fun heq => hnot (List.mem_map.2 ⟨f, hf, heq⟩)
        simpa using hne
      rw [hothers, ih hnodup, rtake_cons_of_length_lt e (Nat.le_of_lt_succ hfull)]
    · next hroom => rw [rtake_of_length_le (Nat.le_of_not_lt hroom), List.map_cons]

theorem Keeps.nodup_keys (h : c.Keeps inserted) (hnew : c.find? k = none) (g : CompiledGraph) :
    ((c.entries ++ [(k, g)]).map (·.1)).Nodup := by
  rw [List.map_append, ← h.queue]
  refine List.nodup_append'.2 ⟨h.nodup, List.nodup_singleton k, List.disjoint_singleton.2 ?_⟩
  rw [h.queue]
  exact find?_eq_none_iff.1 hnew

/-- A new graph is kept, in place of the oldest one if there is no room for both. -/
theorem Keeps.insert_eq (h : c.Keeps inserted) (hnew : c.find? k = none) (graph : Graph) :
    c.insert k graph = (c.numbered graph, { c with
      queue := ((inserted ++ [(k, c.numbered graph)]).rtake c.capacity).map (·.1)
      entries := (inserted ++ [(k, c.numbered graph)]).rtake c.capacity
      nextSerial := c.nextSerial + 1 }) := by
  have hkeys : c.queue ++ [k] = (c.entries ++ [(k, c.numbered graph)]).map (·.1) := by
    rw [h.queue, List.map_append, List.map_singleton]
  have hevict := evict_map c.capacity (h.nodup_keys hnew (c.numbered graph))
  rw [← hkeys] at hevict
  simp only [GraphCompiler.insert, hnew]
  rw [← numbered, hevict, h.entries, rtake_rtake_append]

theorem Keeps.insert (h : c.Keeps inserted) (hnew : c.find? k = none) (graph : Graph) :
    (c.insert k graph).2.Keeps (inserted ++ [(k, c.numbered graph)]) := by
  have hnodup := h.nodup_keys hnew (c.numbered graph)
  rw [h.insert_eq hnew]
  constructor
  case entries => rfl
  case queue => rfl
  case nodup =>
    rw [← rtake_rtake_append, ← h.entries]
    exact hnodup.sublist ((List.drop_sublist ..).map _)
  case older =>
    intro e he
    obtain he | he := List.mem_append.1 he
    · exact Nat.lt_succ_of_lt (h.older e he)
    · obtain rfl := List.mem_singleton.1 he
      exact Nat.lt_succ_self _

theorem keeps_nil (hentries : c.entries = []) (hqueue : c.queue = []) : c.Keeps [] := by
  refine ⟨hentries.trans (List.rtake_nil ..).symm, ?_, hqueue ▸ List.nodup_nil, fun _ he => absurd he List.not_mem_nil⟩
  rw [hqueue, hentries, List.map_nil]

/-- Counting hits and misses changes nothing about what is kept. -/
theorem Keeps.count (h : c.Keeps inserted) (hits misses : Nat) : Keeps { c with hits, misses } inserted :=
  ⟨h.entries, h.queue, h.nodup, h.older⟩

/-- A graph that is kept was inserted before. -/
theorem Keeps.insertion_of_kept (h : c.Keeps inserted) (hkept : c.find? k = some g) : c.insertion k g = [] := by
  have hmem := find?_mem hkept
  rw [h.entries] at hmem
  exact if_neg (h.older _ (List.mem_of_mem_drop hmem)).ne

/-! ### A call of `compile` -/

variable {d : ViewDefinition} {a : Availability}

theorem compile_of_kept (hkept : c.find? (key d a) = some g) :
    c.compile d a = (.ok g, { c with hits := c.hits + 1 }) := by
  simp only [GraphCompiler.compile, lookup, hkept]

theorem compile_of_missed (hmissed : c.find? (key d a) = none) : c.compile d a =
    match c.compileUncached d a with
    | .error e => (.error e, { c with misses := c.misses + 1 })
    | .ok graph =>
      let (answer, c) := { c with misses := c.misses + 1 }.insert (key d a) graph
      (.ok answer, c) := by
  simp only [GraphCompiler.compile, lookup, hmissed]
  rfl

theorem Keeps.compile_ok (h : c.Keeps inserted) (hmissed : c.find? (key d a) = none) {graph : Graph}
    (hgraph : c.compileUncached d a = .ok graph) : ∃ c', c.compile d a = (.ok (c.numbered graph), c') ∧
      c'.hits = c.hits ∧ c'.misses = c.misses + 1 := by
  have hinsert := (h.count c.hits (c.misses + 1)).insert_eq hmissed graph
  rw [compile_of_missed hmissed, hgraph]
  dsimp only
  rw [hinsert]
  exact ⟨_, rfl, rfl, rfl⟩

end

/-! ## Sessions with calls side by side -/

/-- What can come next. -/
inductive Move where
  /-- A call from start to end. -/
  | call (call : Call)
  /-- The first part of a call of `compile`. -/
  | look (definition : ViewDefinition) (availability : Availability)
  /-- The second part of one of the calls that have found nothing. What is available may have changed. -/
  | finish (n : Nat) (availability : Availability)

/-- Whether a call of `compile` begins. -/
def Move.compiles : Move → Bool
  | .call (.compile _ _) => true
  | .look _ _ => true
  | _ => false

structure Session where
  compiler : GraphCompiler
  /-- The calls that have found nothing and have yet to compile a graph. -/
  missed : List (ViewDefinition × GraphKey) := []
  /-- The graphs inserted since all were forgotten, in turn. -/
  inserted : List (GraphKey × CompiledGraph) := []

namespace Session

section
variable (s : Session)

def compile (d : ViewDefinition) (a : Availability) : Session :=
  match s.compiler.compile d a with
  | (.ok answer, compiler) =>
    { s with compiler, inserted := s.inserted ++ s.compiler.insertion (key d a) answer }
  | (.error _, compiler) => { s with compiler }

def look (d : ViewDefinition) (a : Availability) : Session :=
  match s.compiler.lookup (key d a) with
  | (some _, compiler) => { s with compiler }
  | (none, compiler) => { s with compiler, missed := s.missed ++ [(d, key d a)] }

def finish (n : Nat) (a : Availability) : Session :=
  match s.missed[n]? with
  | none => s
  | some (d, k) =>
    match s.compiler.compileUncached d a with
    | .error _ => { s with missed := s.missed.eraseIdx n }
    | .ok g =>
      let (answer, compiler) := s.compiler.insert k g
      { s with
        compiler
        missed := s.missed.eraseIdx n
        inserted := s.inserted ++ s.compiler.insertion k answer }

/-- The session after a move. -/
def step : Move → Session
  | .call (.compile d a) => s.compile d a
  | .call (.compileUncached _ _) => s
  | .call .invalidate => { s with compiler := s.compiler.invalidate, inserted := [] }
  | .look d a => s.look d a
  | .finish n a => s.finish n a

/-- The session after some moves. -/
def after (moves : List Move) : Session := moves.foldl step s

end

section
variable {s : Session}

/-- A call from start to end is its two parts with nothing in between. -/
theorem compile_eq (h : s.compiler.Keeps s.inserted) (d : ViewDefinition) (a : Availability) :
    s.compile d a = (s.look d a).finish s.missed.length a := by
  cases hfind : s.compiler.find? (key d a) with
  | some g =>
    simp [compile, look, finish, lookup, compile_of_kept, hfind, h.insertion_of_kept hfind]
  | none =>
    simp only [compile, look, finish, lookup, compile_of_missed hfind, hfind, List.getElem?_concat_length]
    have hsame : ({ s.compiler with misses := s.compiler.misses + 1 } : GraphCompiler).compileUncached d a =
        s.compiler.compileUncached d a := rfl
    have hdone : (s.missed ++ [(d, key d a)]).eraseIdx s.missed.length = s.missed := by
      rw [List.eraseIdx_append_of_length_le (Nat.le_refl _), Nat.sub_self, List.eraseIdx_cons_zero, List.append_nil]
    rw [hsame, hdone]
    cases s.compiler.compileUncached d a with
    | error e => rfl
    | ok graph => rfl

/-- What a move keeps to: the graphs that are kept, the room for them, and the count of calls. -/
structure Follows (s s' : Session) (compiles : Bool) : Prop where
  keeps : s'.compiler.Keeps s'.inserted
  capacity : s'.compiler.capacity = s.compiler.capacity
  counted : s'.compiler.hits + s'.compiler.misses = s.compiler.hits + s.compiler.misses + compiles.toNat

theorem follows_look (h : s.compiler.Keeps s.inserted) (d : ViewDefinition) (a : Availability) :
    s.Follows (s.look d a) true := by
  cases hfind : s.compiler.find? (key d a) with
  | some g =>
    simp only [look, lookup, hfind]
    exact ⟨h.count _ _, rfl, by simp; omega⟩
  | none =>
    simp only [look, lookup, hfind]
    exact ⟨h.count _ _, rfl, by simp; omega⟩

theorem follows_finish (h : s.compiler.Keeps s.inserted) (n : Nat) (a : Availability) :
    s.Follows (s.finish n a) false := by
  unfold finish
  split
  · exact ⟨h, rfl, rfl⟩
  next d k hmissed =>
  split
  · exact ⟨h, rfl, rfl⟩
  next graph hcompiled =>
  cases hfind : s.compiler.find? k with
  | some g =>
    simp only [GraphCompiler.insert, hfind, h.insertion_of_kept hfind, List.append_nil]
    exact ⟨h, rfl, rfl⟩
  | none =>
    have hkeeps := h.insert hfind graph
    rw [h.insert_eq hfind graph] at hkeeps ⊢
    simp only [insertion_numbered]
    exact ⟨hkeeps, rfl, rfl⟩

theorem follows_step (h : s.compiler.Keeps s.inserted) (m : Move) : s.Follows (s.step m) m.compiles := by
  cases m with
  | call call =>
    cases call with
    | compile d a =>
      have hlook := follows_look h d a
      have hfinish := follows_finish hlook.keeps s.missed.length a
      rw [← compile_eq h] at hfinish
      refine ⟨hfinish.keeps, hfinish.capacity.trans hlook.capacity, ?_⟩
      exact hfinish.counted.trans hlook.counted
    | compileUncached d a => exact ⟨h, rfl, rfl⟩
    | invalidate => exact ⟨keeps_nil rfl rfl, rfl, rfl⟩
  | look d a => exact follows_look h d a
  | finish n a => exact follows_finish h n a

theorem follows_after (h : s.compiler.Keeps s.inserted) (moves : List Move) :
    (s.after moves).compiler.Keeps (s.after moves).inserted ∧
      (s.after moves).compiler.capacity = s.compiler.capacity ∧
      (s.after moves).compiler.hits + (s.after moves).compiler.misses =
        s.compiler.hits + s.compiler.misses + moves.countP Move.compiles := by
  induction moves generalizing s with
  | nil => exact ⟨h, rfl, rfl⟩
  | cons m moves ih =>
    have hstep := follows_step h m
    obtain ⟨hkeeps, hcapacity, hcounted⟩ := ih hstep.keeps
    refine ⟨hkeeps, hcapacity.trans hstep.capacity, hcounted.trans ?_⟩
    rw [hstep.counted, List.countP_cons]
    cases m.compiles with
    | false => rfl
    | true =>
      simp only [Bool.toNat_true, if_pos]
      omega

/-! ## What a compiler has come to -/

/-- What a compiler holds that has room for some graphs: the latest ones, under the same keys in both places. -/
structure Holds (s : Session) (room : Nat) : Prop where
  latest : s.compiler.queue = (s.inserted.map (·.1)).rtake room
  filed : s.compiler.entries.map (·.1) = s.compiler.queue
  nodup : s.compiler.queue.Nodup
  size : s.compiler.cachedGraphs = min room s.inserted.length

/-- How the next call of `compile` goes. -/
structure Answers (s : Session) (room : Nat) (d : ViewDefinition) (a : Availability) : Prop where
  /-- It hits upon the graph that was inserted last under its key, just if that was recently. -/
  hit_iff : ∀ g, ((s.compiler.compile d a).1 = .ok g ∧ (s.compiler.compile d a).2.hits = s.compiler.hits + 1) ↔
    Recent s.inserted room (key d a) g
  /-- A hit does not refresh what it hits upon. -/
  hit : ∀ g, Recent s.inserted room (key d a) g →
    (s.compiler.compile d a).2 = { s.compiler with hits := s.compiler.hits + 1 }
  failure : (∀ g, ¬Recent s.inserted room (key d a) g) → ∀ e, s.compiler.compileUncached d a = .error e →
    s.compiler.compile d a = (.error e, { s.compiler with misses := s.compiler.misses + 1 })
  /-- A miss that can be compiled inserts a graph that there has not been before. -/
  insertion : (∀ g, ¬Recent s.inserted room (key d a) g) → ∀ graph, s.compiler.compileUncached d a = .ok graph →
    ∃ answer compiler, s.compiler.compile d a = (.ok answer, compiler) ∧ answer.graph = graph ∧
      (∀ e ∈ s.inserted, e.2.serial ≠ answer.serial) ∧ compiler.hits = s.compiler.hits ∧
      compiler.misses = s.compiler.misses + 1 ∧
      (s.step (.call (.compile d a))).inserted = s.inserted ++ [(key d a, answer)]

theorem holds (h : s.compiler.Keeps s.inserted) : s.Holds s.compiler.capacity := by
  have hqueue := h.queue
  refine ⟨?_, hqueue.symm, h.nodup, ?_⟩
  · rw [hqueue, h.entries, map_rtake]
  · rw [cachedGraphs, h.entries, length_rtake]

theorem answers (h : s.compiler.Keeps s.inserted) (d : ViewDefinition) (a : Availability) :
    s.Answers s.compiler.capacity d a := by
  cases hfind : s.compiler.find? (key d a) with
  | some g =>
    have hrecent := h.find?_iff.1 hfind
    have hcall := compile_of_kept hfind
    refine ⟨fun g' => ?_, fun g' _ => congrArg Prod.snd hcall, fun hnot => absurd hrecent (hnot g),
      fun hnot => absurd hrecent (hnot g)⟩
    rw [← h.find?_iff, hfind, hcall]
    simp
  | none =>
    have hnot : ∀ g, ¬Recent s.inserted s.compiler.capacity (key d a) g := fun g hrecent => by
      cases hfind.symm.trans (h.find?_iff.2 hrecent)
    have herror : ∀ e, s.compiler.compileUncached d a = .error e →
        s.compiler.compile d a = (.error e, { s.compiler with misses := s.compiler.misses + 1 }) := by
      intro e he
      rw [compile_of_missed hfind, he]
    refine ⟨fun g => iff_of_false ?_ (hnot g), fun g hrecent => absurd hrecent (hnot g), fun _ => herror,
      fun _ graph hgraph => ?_⟩
    · rintro ⟨hanswer, hhits⟩
      cases hcompiled : s.compiler.compileUncached d a with
      | error e => cases (congrArg Prod.fst (herror e hcompiled)).symm.trans hanswer
      | ok graph =>
        obtain ⟨c', hcall, hsame, -⟩ := h.compile_ok hfind hcompiled
        rw [hcall] at hhits
        exact absurd (hsame.symm.trans hhits) (Nat.succ_ne_self _).symm
    · obtain ⟨c', hcall, hhits, hmisses⟩ := h.compile_ok hfind hgraph
      refine ⟨_, c', hcall, rfl, fun e he => (h.older e he).ne, hhits, hmisses, ?_⟩
      simp only [step, compile, hcall, insertion_numbered]

/-- Whatever calls a compiler has had, one after the other or side by side, it keeps the graphs that were inserted last,
as many as it has room for, and a call of `compile` finds a graph just if it is one of them. -/
theorem after_keeps_latest (r : FunctionRepository) (cacheSize : Nat) (moves : List Move) :
    let s := Session.after { compiler := ofRepository r cacheSize } moves
    s.Holds (max cacheSize 1) ∧ s.compiler.hits + s.compiler.misses = moves.countP Move.compiles ∧
      ∀ d a, s.Answers (max cacheSize 1) d a := by
  have hstart : (ofRepository r cacheSize).Keeps [] := keeps_nil rfl rfl
  obtain ⟨hkeeps, hcapacity, hcounted⟩ :=
    follows_after (s := { compiler := ofRepository r cacheSize }) hstart moves
  have hroom : (ofRepository r cacheSize).capacity = max cacheSize 1 := rfl
  rw [← hroom, ← hcapacity]
  exact ⟨holds hkeeps, hcounted.trans (Nat.zero_add _), answers hkeeps⟩

end

end Session

end GraphCompiler
end Valuation
