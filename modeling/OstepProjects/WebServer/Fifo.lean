/-
  OstepProjects/WebServer/Fifo.lean
  =================================
  **FIFO mode: the circular buffer of descriptors.**

  `put` and `get` of `wserver.c` are the operations of a circular queue with `fill`
  as its head, `use` as its tail and `count` as its size.  In every run the queue
  holds the descriptors accepted and not yet taken, in order, so the workers take
  the connections in the order of `accept` (`fifo_safe`).
-/
import OstepProjects.Lib.CircularQueue
import OstepProjects.WebServer.Wserver

namespace OstepProjects.WebServer

open OstepProjects.Transition OstepProjects.CircularQueue

variable {n : Nat}

/-- The FIFO branch of `main`, with `thread_consumer` as the worker.  `junk` is what
    the array `buffer` holds at the start. -/
def fifo (buffer_num : Nat) (junk : Nat → Nat) : Schedule Nat Nat (Queue Nat) where
  empty := ⟨junk, 0, 0, 0⟩
  count buffer := buffer.size
  limit := buffer_num
  entry conn_fd := conn_fd
  put buffer value := buffer.put buffer_num value
  get buffer := (buffer.front, buffer.get buffer_num)

theorem fifo_counts (buffer_num : Nat) (junk : Nat → Nat) : (fifo buffer_num junk).Counts where
  empty := rfl
  put _ _ := rfl
  get _ := rfl

/-- The queue holds the descriptors put and not yet taken. -/
def FifoInv (buffer_num : Nat) (s : State Nat Nat (Queue Nat) n) : Prop :=
  ∃ queued, Holds buffer_num s.buffer queued ∧ s.puts = s.taken.map Prod.snd ++ queued

section Steps

variable {buffer_num : Nat} {junk : Nat → Nat} {s s' : State Nat Nat (Queue Nat) n}

theorem fifoInv_master (hn : 0 < n) (hserver : ServerInv (fifo buffer_num junk) s)
    (h : FifoInv buffer_num s) {conn : Nat} {wake : Option (Fin n)}
    (hs : stepMaster (fifo buffer_num junk) s conn wake = some s') : FifoInv buffer_num s' := by
  obtain ⟨queued, hholds, hputs⟩ := h
  cases hm : s.master <;> simp only [stepMaster, hm] at hs
  case critical conn =>
    split at hs
    · cases hs
      exact ⟨queued, hholds, hputs⟩
    · rename_i hnotfull
      have hsize : s.buffer.size < buffer_num :=
        Nat.lt_of_le_of_ne hserver.count_le hnotfull
      rw [(signalFull_cases hn hs).2.2]
      refine ⟨queued ++ [conn], put_holds hholds hsize conn, ?_⟩
      change s.puts ++ [conn] = _
      rw [hputs, List.append_assoc]
  case lock | woken =>
    split at hs <;> cases hs
    exact ⟨queued, hholds, hputs⟩
  case asleep => cases hs
  all_goals
    cases hs
    exact ⟨queued, hholds, hputs⟩

theorem fifoInv_worker (h : FifoInv buffer_num s) {w : Fin n}
    (hs : stepWorker (fifo buffer_num junk) s w = some s') : FifoInv buffer_num s' := by
  obtain ⟨queued, hholds, hputs⟩ := h
  cases hx : s.workers w <;> simp only [stepWorker, hx] at hs
  case critical =>
    split at hs
    · cases hs
      exact ⟨queued, hholds, hputs⟩
    · rename_i hpos
      cases hs
      obtain ⟨rest, hrest⟩ := exists_cons hholds (Nat.pos_of_ne_zero hpos)
      rw [hrest] at hholds hputs
      refine ⟨rest, get_holds hholds, ?_⟩
      change s.puts = (s.taken ++ [(w, s.buffer.front)]).map Prod.snd ++ rest
      rw [hputs]
      simp
  case lock | woken =>
    split at hs <;> cases hs
    exact ⟨queued, hholds, hputs⟩
  case asleep => cases hs
  all_goals
    cases hs
    exact ⟨queued, hholds, hputs⟩

end Steps

theorem Reachable.fifoInv {buffer_num : Nat} {junk : Nat → Nat} (hb : 0 < buffer_num) (hn : 0 < n)
    {s : State Nat Nat (Queue Nat) n} (hs : (system (fifo buffer_num junk) n).Reachable s) :
    FifoInv buffer_num s := by
  refine System.Reaches.invariant ⟨[], holds_empty hb _, rfl⟩ ?_ hs
  intro s a s' hr h _ hstep
  cases a with
  | master conn wake =>
    exact fifoInv_master hn (Reachable.serverInv (fifo_counts _ _) hn hr) h hstep
  | worker w => exact fifoInv_worker h hstep

/-- **Safety of the FIFO server.**  In every reachable state the buffer indices agree
    with `count`; the descriptors taken, those queued and the one the master holds make
    up those accepted, in order; each worker has handled and closed what it took, up to
    the one at hand; and nobody sleeps in vain. -/
theorem fifo_safe {buffer_num : Nat} (junk : Nat → Nat) (hb : 1 ≤ buffer_num) (hn : 1 ≤ n)
    {s : State Nat Nat (Queue Nat) n} (hs : (system (fifo buffer_num junk) n).Reachable s) :
    s.buffer.size ≤ buffer_num ∧
    (s.buffer.tail + s.buffer.size) % buffer_num = s.buffer.head ∧
    (∃ queued, Holds buffer_num s.buffer queued ∧
      s.accepted = s.taken.map Prod.snd ++ queued ++ s.master.pending) ∧
    (∀ w, ofWorker s.taken w = ofWorker s.closed w ++ (s.workers w).holding ∧
      ofWorker s.handled w = ofWorker s.closed w ++ (s.workers w).closing) ∧
    ¬ (s.master.Asleep = true ∧ ∀ w, (s.workers w).Asleep = true) ∧
    ¬ ∃ w, (s.workers w).Asleep = true ∧ 0 < s.buffer.size ∧
      ∀ v, v ≠ w → (s.workers v).Asleep = true := by
  have hserver := Reachable.serverInv (fifo_counts buffer_num junk) hn hs
  obtain ⟨queued, hholds, hputs⟩ := Reachable.fifoInv hb hn hs
  refine ⟨hserver.count_le, hholds.head_eq, ⟨queued, hholds, ?_⟩, ?_,
    hserver.not_all_asleep hb, ?_⟩
  · have hentry : ∀ l : List Nat, l.map (fifo buffer_num junk).entry = l := List.map_id
    have haccepted := hserver.puts
    rw [hentry, hentry, hputs] at haccepted
    exact haccepted
  · intro w
    exact ⟨(hserver.worker w).taken, (hserver.worker w).handled⟩
  · rintro ⟨w, hw, hpos, hothers⟩
    obtain ⟨v, hv⟩ := hserver.busy hpos
    by_cases hvw : v = w
    · rw [hvw, hw] at hv
      cases hv
    · rw [hothers v hvw] at hv
      cases hv

/-- One slot and one worker: descriptor 7 is queued while the master holds 8. -/
theorem fifo_safe_full : ∃ s : State Nat Nat (Queue Nat) 1,
    (system (fifo 1 fun _ => 0) 1).run (.start (fifo 1 fun _ => 0))
      [.master 7 none, .master 0 none, .master 0 none, .master 0 none, .master 8 none,
        .master 0 none, .master 0 none] = some s ∧
    s.accepted = [7, 8] ∧ s.master.Asleep = true ∧
    ¬ ∀ w, (s.workers w).Asleep = true := by
  obtain ⟨s, hs⟩ := Option.isSome_iff_exists.mp
    (by decide : ((system (fifo 1 fun _ => 0) 1).run (.start (fifo 1 fun _ => 0))
      [.master 7 none, .master 0 none, .master 0 none, .master 0 none, .master 8 none,
        .master 0 none, .master 0 none]).isSome)
  have hend : ((system (fifo 1 fun _ => 0) 1).run (.start (fifo 1 fun _ => 0))
      [.master 7 none, .master 0 none, .master 0 none, .master 0 none, .master 8 none,
        .master 0 none, .master 0 none]).map (fun s => (s.accepted, s.master.Asleep)) =
      some ([7, 8], true) := by decide
  simp only [hs, Option.map_some, Option.some.injEq, Prod.mk.injEq] at hend
  have hsafe := fifo_safe (fun _ => 0) (le_refl 1) (le_refl 1) (System.Reaches.run .start hs)
  exact ⟨s, hs, hend.1, hend.2, fun hall => hsafe.2.2.2.2.1 ⟨hend.2, hall⟩⟩

end OstepProjects.WebServer
