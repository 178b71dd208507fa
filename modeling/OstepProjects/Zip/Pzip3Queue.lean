/-
  OstepProjects/Zip/Pzip3Queue.lean
  =================================
  **The page queue of `pzip3` over a whole run.**

  The producer tests for a free slot in one critical section and puts its page in
  another.  Nothing is lost in between, since only the producer makes the queue
  longer (`SizeInv.room`).  A consumer tests and takes in the same section.  So in
  every reachable state the queue holds the pages put and not yet taken, in order
  (`queueSafe`), for files of any size and any number of consumers.

  Which consumer takes a page is a log of the run (`taken`).  When the consumers have
  returned, the log names for every page put the one consumer that took it.
-/
import OstepProjects.Zip.Pzip3Positions

namespace OstepProjects.Pzip3

open OstepProjects.Transition OstepProjects.CircularQueue OstepProjects.Zip

variable {n : Nat} {cfg : Config}

/-- The page that a step takes from the queue, with the consumer that takes it. -/
def taken (s : State n) : Action n → List (Fin n × Buffer)
  | .producer _ => []
  | .consumer c => if (s.consumers c).pc = .get then [(c, s.queue.front)] else []

/-- The invariants of the queue, whatever the sizes of the files. -/
structure QueueReached (s : State n) : Prop where
  sync : SyncInv s
  size : SizeInv s
  queue : QueueInv s

theorem Reachable.queueReached {s : State n} (hs : (system cfg n).Reachable s) :
    QueueReached s := by
  refine System.Reaches.invariant ?_ ?_ hs
  · exact ⟨syncInv_start cfg, sizeInv_start cfg, [], holds_empty (by decide) _, rfl⟩
  · intro s a s' _ h _ hstep
    cases a with
    | producer wake =>
      exact ⟨syncInv_producer h.sync hstep, sizeInv_producer h.sync h.size hstep,
        queueInv_producer h.size h.queue hstep⟩
    | consumer c =>
      exact ⟨syncInv_consumer h.sync hstep, sizeInv_consumer h.sync h.size hstep,
        queueInv_consumer h.size h.queue hstep⟩

/-- The log is the one of the calls of `get`, with the callers. -/
theorem map_snd_takes {s : State n × List (Fin n × Buffer)}
    (hs : ((system cfg n).logging taken).Reachable s) : s.2.map Prod.snd = s.1.getLog := by
  induction hs with
  | start => rfl
  | @step s s' a _ _ hstep ih =>
    obtain ⟨hstep, hlog⟩ := System.logging_step hstep
    rw [hlog, List.map_append, ih]
    cases a with
    | producer wake =>
      rw [(stepProducer_data hstep).1]
      exact List.append_nil _
    | consumer c =>
      rw [(stepConsumer_data hstep).getLog, taken]
      split
      · rfl
      · exact List.append_nil _

/-- No page is put twice. -/
theorem putLog_nodup {s : State n} (hs : (system cfg n).Reachable s) : s.putLog.Nodup := by
  apply List.Nodup.of_map (position cfg)
  rw [map_position_putLog hs]
  exact List.nodup_range

/-- What holds of the queue in a state that a run has come to. -/
structure QueueSafe (s : State n) (takes : List (Fin n × Buffer)) : Prop where
  size_le : s.queue.size ≤ q_capacity
  head_eq : (s.queue.tail + s.queue.size) % q_capacity = s.queue.head
  cells : ∃ xs, s.putLog = s.getLog ++ xs ∧ xs.length = s.queue.size ∧
    ∀ k (h : k < xs.length), s.queue.buf ((s.queue.tail + k) % q_capacity) = xs[k]
  put_free : s.producer.pc = .put → s.queue.size < q_capacity ∧
    ∀ k < s.queue.size, (s.queue.tail + k) % q_capacity ≠ s.queue.head
  get_full : ∀ c, (s.consumers c).pc = .get → 0 < s.queue.size
  takes_eq : takes.map Prod.snd = s.getLog
  taken_once : 0 < n → (∀ c, (s.consumers c).pc = .returned) →
    takes.map Prod.snd = s.putLog ∧ ∀ b ∈ s.putLog, ∃! c, (c, b) ∈ takes

/-- A log without repetition names one consumer for a page. -/
theorem existsUnique_mem_takes {takes : List (Fin n × Buffer)}
    (hnodup : (takes.map Prod.snd).Nodup) {b : Buffer} (hb : b ∈ takes.map Prod.snd) :
    ∃! c, (c, b) ∈ takes := by
  obtain ⟨⟨c, b⟩, hmem, rfl⟩ := List.mem_map.mp hb
  refine ⟨c, hmem, ?_⟩
  intro d hd
  have heq := List.inj_on_of_nodup_map hnodup hd hmem rfl
  exact congrArg Prod.fst heq

/-- **The queue of `pzip3` never overflows, never runs dry under a `get`, and keeps its
    order**, and every page put is taken by one consumer. -/
theorem queueSafe {s : State n × List (Fin n × Buffer)}
    (hs : ((system cfg n).logging taken).Reachable s) : QueueSafe s.1 s.2 := by
  have hreach := System.logging_reachable hs
  obtain ⟨-, hsize, xs, hholds, hlog⟩ := Reachable.queueReached hreach
  have htakes := map_snd_takes hs
  refine ⟨hholds.size_le, hholds.head_eq, ⟨xs, hlog, hholds.length_eq, hholds.cell⟩, ?_, ?_,
    htakes, ?_⟩
  · intro hput
    have hroom := hsize.room (by rw [hput]; rfl)
    refine ⟨hroom, fun k hk => head_unused hholds hroom ?_⟩
    rw [hholds.length_eq]
    exact hk
  · intro c hget
    exact Nat.pos_of_ne_zero (hsize.nonempty c hget)
  · intro hn hret
    -- a consumer leaves an empty queue
    have hzero := hsize.left ⟨0, hn⟩ (by rw [hret]; rfl)
    have hxs : xs = [] := List.eq_nil_of_length_eq_zero (hholds.length_eq.trans hzero)
    have hall : s.2.map Prod.snd = s.1.putLog := by rw [htakes, hlog, hxs, List.append_nil]
    refine ⟨hall, fun b hb => ?_⟩
    rw [← hall] at hb
    exact existsUnique_mem_takes (by rw [hall]; exact putLog_nodup hreach) hb

/-- Both consumers of `outOfOrder` take pages. -/
theorem queueSafe_outOfOrder : ∃ s : State 2 × List (Fin 2 × Buffer),
    ((system threePages 2).logging taken).run (.start threePages 2, []) outOfOrder = some s ∧
    s.2.map Prod.fst = [0, 1, 1] ∧ QueueSafe s.1 s.2 := by
  obtain ⟨s, hs⟩ := Option.isSome_iff_exists.mp
    (by decide : (((system threePages 2).logging taken).run (.start threePages 2, [])
      outOfOrder).isSome)
  have hend : (((system threePages 2).logging taken).run (.start threePages 2, [])
      outOfOrder).map (fun s => s.2.map Prod.fst) = some [0, 1, 1] := by decide
  simp only [hs, Option.map_some, Option.some.injEq] at hend
  exact ⟨s, hs, hend, queueSafe (System.Reaches.run .start hs)⟩

end OstepProjects.Pzip3
