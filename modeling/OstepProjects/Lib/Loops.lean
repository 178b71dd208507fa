/-
  OstepProjects/Lib/Loops.lean
  ============================
  **Loops that may stop.**

  A loop over a list with a state is `List.foldlM` in `Except`: the body gives the next
  state or stops the loop.  A loop without a state returns when no item stops it, and
  stops with the first item that does (`run_eq_error_iff`).

  A loop that marks what it has met and stops at what is marked returns iff no key occurs
  twice (`foldlM_mark_ok_iff`).  A loop that does something else with what is marked comes
  to the first item whose key occurred before (`foldlM_mark`).

  A step that may fail gives the list of its results iff it fails on no item
  (`mapM_eq_some_iff`).
-/
import Mathlib.Data.List.Basic
import Mathlib.Data.List.Nodup

namespace OstepProjects.Loops

variable {α σ ε : Type}

/-! ### The first stop -/

theorem ok_bind {β : Type} (s : σ) (f : σ → Except ε β) : (Except.ok s >>= f) = f s := rfl

theorem error_bind {β : Type} (e : ε) (f : σ → Except ε β) :
    ((Except.error e : Except ε σ) >>= f) = .error e := rfl

theorem bind_eq_ok_iff {β : Type} {x : Except ε σ} {f : σ → Except ε β} {b : β} :
    x >>= f = .ok b ↔ ∃ s, x = .ok s ∧ f s = .ok b := by
  rcases x with e | s
  · exact iff_of_false (fun h => nomatch h) fun ⟨_, h, _⟩ => nomatch h
  · constructor
    · intro h
      exact ⟨s, rfl, h⟩
    · rintro ⟨t, ht, h⟩
      obtain rfl := Except.ok.inj ht
      exact h

/-- A loop that returns has let every item pass. -/
theorem foldlM_ok_iff {f g : σ → α → Except ε σ} {P : α → Prop} {l : List α}
    (h : ∀ a ∈ l, ∀ s t, f s a = .ok t ↔ P a ∧ g s a = .ok t) {s t : σ} :
    l.foldlM f s = .ok t ↔ (∀ a ∈ l, P a) ∧ l.foldlM g s = .ok t := by
  induction l generalizing s with
  | nil => exact (and_iff_right fun _ ha => absurd ha List.not_mem_nil).symm
  | cons a l ih =>
    have hrest := fun s => ih (s := s) fun b hb => h b (List.mem_cons_of_mem a hb)
    rw [List.foldlM_cons, List.foldlM_cons, bind_eq_ok_iff, bind_eq_ok_iff, List.forall_mem_cons]
    simp only [h a List.mem_cons_self, hrest]
    constructor
    · rintro ⟨s', ⟨ha, hs'⟩, hl, ht⟩
      exact ⟨⟨ha, hl⟩, s', hs', ht⟩
    · rintro ⟨⟨ha, hl⟩, s', hs', ht⟩
      exact ⟨s', ⟨ha, hs'⟩, hl, ht⟩

/-- A loop whose body always stops at one index does not get past it. -/
theorem foldlM_range_stop {body : σ → Nat → Except ε σ} {e : ε} {limit n : Nat}
    (hstop : ∀ s, body s limit = .error e) (hlimit : limit < n) (s : σ) :
    (List.range n).foldlM body s = (List.range limit).foldlM body s >>= fun _ => .error e := by
  obtain ⟨k, rfl⟩ := Nat.exists_eq_add_of_lt hlimit
  rw [Nat.add_assoc, List.range_add, List.foldlM_append]
  congr 1
  funext s
  rw [List.range_succ_eq_map, List.map_cons, List.foldlM_cons, Nat.add_zero, hstop]
  rfl

/-- Bodies that do the same with every item make the same loop. -/
theorem foldlM_congr {f g : σ → α → Except ε σ} {l : List α} (s : σ)
    (h : ∀ a ∈ l, ∀ s, f s a = g s a) : l.foldlM f s = l.foldlM g s := by
  induction l generalizing s with
  | nil => rfl
  | cons a l ih =>
    rw [List.foldlM_cons, List.foldlM_cons, h a List.mem_cons_self]
    apply bind_congr
    intro s
    exact ih s fun b hb => h b (List.mem_cons_of_mem a hb)

/-- A loop in a loop is one loop over the items of both. -/
theorem foldlM_flatMap {β : Type} (items : β → List α) (body : σ → α → Except ε σ) (l : List β)
    (s : σ) :
    (l.flatMap items).foldlM body s = l.foldlM (fun s b => (items b).foldlM body s) s := by
  induction l generalizing s with
  | nil => rfl
  | cons b l ih =>
    rw [List.flatMap_cons, List.foldlM_append, List.foldlM_cons]
    exact bind_congr ih

/-- A body that never stops. -/
theorem foldlM_ok {body : σ → α → Except ε σ} {next : σ → α → σ} {l : List α}
    (h : ∀ a ∈ l, ∀ s, body s a = .ok (next s a)) (s : σ) :
    l.foldlM body s = .ok (l.foldl next s) := by
  rw [foldlM_congr (g := fun s a => pure (next s a)) s h]
  exact List.foldlM_pure

/-- A loop without a state. -/
def run (f : α → Except ε Unit) (l : List α) : Except ε Unit := l.foldlM (fun _ a => f a) ()

variable {f : α → Except ε Unit} {l : List α}

@[simp] theorem run_nil : run f [] = .ok () := rfl

theorem run_cons (f : α → Except ε Unit) (a : α) (l : List α) :
    run f (a :: l) = f a >>= fun _ => run f l := by
  rw [run, List.foldlM_cons]
  rfl

theorem run_append (f : α → Except ε Unit) (l l' : List α) :
    run f (l ++ l') = run f l >>= fun _ => run f l' := by
  rw [run, List.foldlM_append]
  rfl

theorem run_eq_ok_iff : run f l = .ok () ↔ ∀ a ∈ l, f a = .ok () := by
  induction l with
  | nil => simp
  | cons a l ih =>
    rw [run_cons, List.forall_mem_cons, ← ih]
    rcases f a with e | _
    · exact iff_of_false (fun h => nomatch h) (fun h => nomatch h.1)
    · exact (and_iff_right rfl).symm

/-- The loop stops with the first item that stops it. -/
theorem run_eq_error_iff {e : ε} :
    run f l = .error e ↔
      ∃ front a back, l = front ++ a :: back ∧ (∀ b ∈ front, f b = .ok ()) ∧ f a = .error e := by
  constructor
  · intro h
    induction l with
    | nil => exact nomatch h
    | cons a l ih =>
      rw [run_cons] at h
      rcases hfa : f a with e' | _
      · rw [hfa] at h
        exact ⟨[], a, l, rfl, fun b hb => absurd hb List.not_mem_nil, hfa.trans h⟩
      · rw [hfa] at h
        obtain ⟨front, b, back, rfl, hfront, hb⟩ := ih h
        refine ⟨a :: front, b, back, rfl, ?_, hb⟩
        exact List.forall_mem_cons.mpr ⟨hfa, hfront⟩
  · rintro ⟨front, a, back, rfl, hfront, ha⟩
    rw [run_append, run_eq_ok_iff.mpr hfront, ok_bind, run_cons, ha, error_bind]

/-- A loop whose body stops at what is `bad`: it stops at the first item that is. -/
theorem run_eq_elim {γ : Type} {bad : α → Option γ} {stop : γ → ε}
    (h : ∀ a ∈ l, f a = (bad a).elim (.ok ()) fun c => .error (stop c)) :
    run f l = (l.findSome? bad).elim (.ok ()) fun c => .error (stop c) := by
  induction l with
  | nil => rfl
  | cons a l ih =>
    rw [run_cons, h a List.mem_cons_self, List.findSome?_cons]
    rcases bad a with _ | c
    · exact ih fun b hb => h b (List.mem_cons_of_mem a hb)
    · rfl

theorem findSome?_congr {γ : Type} {f g : α → Option γ} {l : List α} (h : ∀ a ∈ l, f a = g a) :
    l.findSome? f = l.findSome? g := by
  induction l with
  | nil => rfl
  | cons a l ih =>
    rw [List.findSome?_cons, List.findSome?_cons, h a List.mem_cons_self,
      ih fun b hb => h b (List.mem_cons_of_mem a hb)]

/-- A loop with an item that always stops it ends with one of the errors of its body. -/
theorem foldlM_stops {Q : ε → Prop} {body : σ → α → Except ε σ} {l : List α}
    (hbody : ∀ a ∈ l, ∀ s e, body s a = .error e → Q e)
    (hstop : ∃ a ∈ l, ∀ s t, body s a ≠ .ok t) (s : σ) :
    ∃ e, Q e ∧ l.foldlM body s = .error e := by
  induction l generalizing s with
  | nil =>
    obtain ⟨a, ha, _⟩ := hstop
    exact absurd ha List.not_mem_nil
  | cons a l ih =>
    rw [List.foldlM_cons]
    rcases hfirst : body s a with e | t
    · exact ⟨e, hbody a List.mem_cons_self s e hfirst, rfl⟩
    · obtain ⟨b, hb, hnever⟩ := hstop
      have hrest : b ∈ l := by
        rcases List.mem_cons.mp hb with rfl | hrest
        · exact absurd hfirst (hnever s t)
        · exact hrest
      exact ih (fun c hc => hbody c (List.mem_cons_of_mem a hc)) ⟨b, hrest, hnever⟩ t

/-- A loop that stops at what is marked returns iff no key is marked or occurs twice. -/
theorem foldlM_mark_ok_iff {κ : Type} {body : σ → α → Except ε σ} {next : σ → α → σ}
    (key : α → κ) (marked : σ → κ → Prop)
    (hbody : ∀ s a t, body s a = .ok t ↔ ¬ marked s (key a) ∧ next s a = t)
    (hnext : ∀ s a k, marked (next s a) k ↔ marked s k ∨ k = key a) {l : List α} {s t : σ} :
    l.foldlM body s = .ok t ↔
      ((∀ a ∈ l, ¬ marked s (key a)) ∧ (l.map key).Nodup) ∧ l.foldl next s = t := by
  induction l generalizing s with
  | nil => simp [pure, Except.pure]
  | cons a l ih =>
    have hstep : (∃ s', body s a = .ok s' ∧ l.foldlM body s' = .ok t) ↔
        ¬ marked s (key a) ∧ l.foldlM body (next s a) = .ok t := by
      constructor
      · rintro ⟨s', hs', ht⟩
        obtain ⟨ha, rfl⟩ := (hbody s a s').mp hs'
        exact ⟨ha, ht⟩
      · rintro ⟨ha, ht⟩
        exact ⟨next s a, (hbody s a _).mpr ⟨ha, rfl⟩, ht⟩
    rw [List.foldlM_cons, bind_eq_ok_iff, hstep, ih, List.forall_mem_cons, List.map_cons,
      List.nodup_cons, List.foldl_cons]
    simp only [hnext, not_or]
    constructor
    · rintro ⟨ha, ⟨hl, hnodup⟩, ht⟩
      refine ⟨⟨⟨ha, fun b hb => (hl b hb).1⟩, ?_, hnodup⟩, ht⟩
      intro hmem
      obtain ⟨b, hb, hkey⟩ := List.mem_map.mp hmem
      exact (hl b hb).2 hkey
    · rintro ⟨⟨⟨ha, hl⟩, hnotMem, hnodup⟩, ht⟩
      refine ⟨ha, ⟨fun b hb => ⟨hl b hb, fun hkey => hnotMem ?_⟩, hnodup⟩, ht⟩
      exact hkey ▸ List.mem_map_of_mem hb

/-! ### The first repeat -/

variable {κ : Type} [DecidableEq κ] (key : α → κ)

/-- The first item whose key was seen or occurred before. -/
def firstRepeatAfter (seen : List κ) : List α → Option α
  | [] => none
  | a :: l => if key a ∈ seen then some a else firstRepeatAfter (key a :: seen) l

/-- The first item whose key occurred before. -/
def firstRepeat (l : List α) : Option α := firstRepeatAfter key [] l

theorem firstRepeatAfter_eq_none_iff {seen : List κ} {l : List α} :
    firstRepeatAfter key seen l = none ↔ (l.map key).Nodup ∧ ∀ a ∈ l, key a ∉ seen := by
  induction l generalizing seen with
  | nil => simp [firstRepeatAfter]
  | cons a l ih =>
    rw [firstRepeatAfter]
    split_ifs with ha
    · exact iff_of_false not_false (fun h => h.2 a List.mem_cons_self ha)
    · rw [ih, List.map_cons, List.nodup_cons, List.forall_mem_cons]
      constructor
      · rintro ⟨hnodup, hnew⟩
        refine ⟨⟨?_, hnodup⟩, ha, fun b hb h => hnew b hb (List.mem_cons_of_mem _ h)⟩
        intro hmem
        obtain ⟨b, hb, hkey⟩ := List.mem_map.mp hmem
        exact hnew b hb (hkey ▸ List.mem_cons_self)
      · rintro ⟨⟨hnotMem, hnodup⟩, _, hnew⟩
        refine ⟨hnodup, fun b hb h => ?_⟩
        rcases List.mem_cons.mp h with hkey | h
        · exact hnotMem (hkey ▸ List.mem_map_of_mem hb)
        · exact hnew b hb h

theorem firstRepeat_eq_none_iff {l : List α} : firstRepeat key l = none ↔ (l.map key).Nodup := by
  rw [firstRepeat, firstRepeatAfter_eq_none_iff]
  exact and_iff_left fun a _ => List.not_mem_nil

theorem firstRepeatAfter_mem {seen : List κ} {l : List α} {a : α}
    (h : firstRepeatAfter key seen l = some a) : a ∈ l := by
  induction l generalizing seen with
  | nil => exact nomatch h
  | cons b l ih =>
    rw [firstRepeatAfter] at h
    split_ifs at h
    · exact Option.some.inj h ▸ List.mem_cons_self
    · exact List.mem_cons_of_mem b (ih h)

theorem firstRepeat_map {β : Type} (f : β → α) (l : List β) :
    firstRepeat key (l.map f) = (firstRepeat (fun b => key (f b)) l).map f := by
  suffices h : ∀ seen, firstRepeatAfter key seen (l.map f) =
      (firstRepeatAfter (fun b => key (f b)) seen l).map f from h []
  induction l with
  | nil => exact fun _ => rfl
  | cons b l ih =>
    intro seen
    rw [List.map_cons, firstRepeatAfter, firstRepeatAfter]
    split_ifs
    · rfl
    · exact ih _

/-- A loop that marks the key of every item, and whose body does something else with an item
    that is marked: it comes to its end, or to the first repeat. -/
theorem foldlM_mark {body : σ → α → Except ε σ} (marked : σ → κ → Prop) {l : List α}
    (hmark : ∀ a ∈ l, ∀ s, ¬ marked s (key a) →
      ∃ s', body s a = .ok s' ∧ ∀ k, marked s' k ↔ marked s k ∨ k = key a)
    {seen : List κ} {s : σ} (hseen : ∀ k, marked s k ↔ k ∈ seen) :
    (firstRepeatAfter key seen l = none → ∃ s', l.foldlM body s = .ok s') ∧
      ∀ a, firstRepeatAfter key seen l = some a →
        ∃ s', marked s' (key a) ∧ ∀ e, body s' a = .error e → l.foldlM body s = .error e := by
  induction l generalizing seen s with
  | nil => exact ⟨fun _ => ⟨s, rfl⟩, fun a h => nomatch h⟩
  | cons a l ih =>
    rw [firstRepeatAfter]
    split_ifs with ha
    · refine ⟨False.elim, fun b hb => ⟨s, ?_, fun e he => ?_⟩⟩
      · obtain rfl := Option.some.inj hb
        exact (hseen _).mpr ha
      · obtain rfl := Option.some.inj hb
        rw [List.foldlM_cons, he, error_bind]
    · obtain ⟨s', hbody, hmarked⟩ := hmark a List.mem_cons_self s (fun h => ha ((hseen _).mp h))
      have hseen' : ∀ k, marked s' k ↔ k ∈ key a :: seen := by
        intro k
        rw [hmarked, hseen, List.mem_cons, or_comm]
      have hrest := ih (fun b hb => hmark b (List.mem_cons_of_mem a hb)) hseen'
      rw [List.foldlM_cons, hbody, ok_bind]
      exact hrest

/-! ### Items that may fail -/

theorem mapM_eq_some_iff {β : Type} {f : α → Option β} {l : List α} {ys : List β} :
    l.mapM f = some ys ↔ l.map f = ys.map some := by
  induction l generalizing ys with
  | nil =>
    rw [List.mapM_nil]
    constructor
    · intro h
      obtain rfl : [] = ys := Option.some.inj h
      rfl
    · intro h
      obtain rfl : ys = [] := by simpa using h.symm
      rfl
  | cons a l ih =>
    rw [List.mapM_cons, List.map_cons]
    constructor
    · intro h
      obtain ⟨b, hb, h⟩ := Option.bind_eq_some_iff.mp h
      obtain ⟨bs, hbs, h⟩ := Option.bind_eq_some_iff.mp h
      obtain rfl : b :: bs = ys := Option.some.inj h
      rw [hb, ih.mp hbs, List.map_cons]
    · intro h
      obtain ⟨b, bs, rfl, hb, hbs⟩ := List.map_eq_cons_iff.mp h.symm
      rw [← hb, ih.mpr hbs.symm]
      rfl

end OstepProjects.Loops
