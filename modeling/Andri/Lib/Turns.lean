/-
  Andri.Lib.Turns

  A server that takes its clients one at a time.  A client is numbered as it
  arrives and waits its turn; the one whose turn it is is worked on until it is
  done.  Clients act on their own while they wait and while they are served.

  Three rules: clients are served in the order they arrived, and what one goes
  through is a run of its own (`Turns.Ordered`, `Turns.Each`); if whatever is
  pending can always be finished, everything is (`Turns.canReach_idle`); and one
  that never finishes stays pending (`Turns.mem_pending_run`), so that no later
  one gets its turn (`Turns.Ordered.le_of_pending`).
-/
import Andri.Lib.Transition
import Mathlib.Data.List.Range

namespace Andri.Lib

/-- Replacing an element by one that looks the same. -/
theorem map_set_of_eq {α β : Type*} {f : α → β} {l : List α} {i : ℕ} {a b : α}
    (h : l[i]? = some a) (hf : f b = f a) : (l.set i b).map f = l.map f := by
  obtain ⟨hlt, hget⟩ := List.getElem?_eq_some_iff.mp h
  have hlt' : i < (l.map f).length := by simpa using hlt
  have hsame : f b = (l.map f)[i] := by simp [hf, hget]
  rw [List.map_set, hsame, List.set_getElem_self]

/-- Clients with the numbers they arrived under: the one served now, those
    waiting in their order, those done in theirs. -/
structure Turns (σ : Type*) where
  current : Option (ℕ × σ)
  waiting : List (ℕ × σ)
  finished : List (ℕ × σ)
  arrivals : ℕ

namespace Turns

variable {σ : Type*}

/-- Nobody has arrived. -/
def init : Turns σ := ⟨none, [], [], 0⟩

/-- Nobody is served and nobody waits. -/
def Idle (t : Turns σ) : Prop := t.current = none ∧ t.waiting = []

/-- The clients not done, in the order of their turns. -/
def pending (t : Turns σ) : List (ℕ × σ) := t.current.toList ++ t.waiting

/-- Steps of the server: it takes the first that waits, works on the one it has
    taken, and lets it go when it is done. -/
inductive Own (work : σ → σ → Prop) (done : σ → Prop) : Turns σ → Turns σ → Prop
  | take {t : Turns σ} {j : ℕ × σ} {rest : List (ℕ × σ)} (hfree : t.current = none)
      (hw : t.waiting = j :: rest) : Own work done t { t with current := some j, waiting := rest }
  | work {t : Turns σ} {k : ℕ} {s s' : σ} (hc : t.current = some (k, s)) (h : work s s') :
      Own work done t { t with current := some (k, s') }
  | finish {t : Turns σ} {k : ℕ} {s : σ} (hc : t.current = some (k, s)) (h : done s) :
      Own work done t { t with current := none, finished := t.finished ++ [(k, s)] }

/-- Steps of the clients: one arrives, the one served acts, one that waits acts. -/
inductive Clients (start : σ) (env : σ → σ → Prop) : Turns σ → Turns σ → Prop
  | arrive {t : Turns σ} :
      Clients start env t
        { t with waiting := t.waiting ++ [(t.arrivals, start)], arrivals := t.arrivals + 1 }
  | served {t : Turns σ} {k : ℕ} {s s' : σ} (hc : t.current = some (k, s)) (h : env s s') :
      Clients start env t { t with current := some (k, s') }
  | waits {t : Turns σ} {i k : ℕ} {s s' : σ} (hi : t.waiting[i]? = some (k, s)) (h : env s s') :
      Clients start env t { t with waiting := t.waiting.set i (k, s') }

/-- A step of the server or of a client. -/
def Step (start : σ) (work env : σ → σ → Prop) (done : σ → Prop) (t t' : Turns σ) : Prop :=
  Own work done t t' ∨ Clients start env t t'

variable {start : σ} {work env : σ → σ → Prop} {done : σ → Prop} {t t' : Turns σ}

/-! ## Order -/

/-- The clients done, the one served and those waiting are those that arrived, in order. -/
def Ordered (t : Turns σ) : Prop :=
  (t.finished ++ t.pending).map Prod.fst = List.range t.arrivals

theorem Ordered.own (h : t.Ordered) (hstep : Own work done t t') : t'.Ordered := by
  unfold Ordered pending at h ⊢
  cases hstep with
  | take hfree hw => simpa [hfree, hw] using h
  | work hc _ => simpa [hc] using h
  | finish hc _ => simpa [hc] using h

theorem Ordered.clients (h : t.Ordered) (hstep : Clients start env t t') : t'.Ordered := by
  unfold Ordered pending at h ⊢
  cases hstep with
  | arrive =>
      rw [List.range_succ, ← h]
      simp
  | served hc _ => simpa [hc] using h
  | @waits i k s s' hi _ =>
      -- the client that acts keeps its number
      have hset : (t.waiting.set i (k, s')).map Prod.fst = t.waiting.map Prod.fst :=
        map_set_of_eq hi rfl
      simpa [hset] using h

/-! ## Runs of their own -/

/-- Every client has a run of its own behind it, the ones that wait only of their own
    steps, and those let go are done. -/
structure Each (start : σ) (work env : σ → σ → Prop) (done : σ → Prop) (t : Turns σ) : Prop where
  current : ∀ j ∈ t.current, Run (fun s s' => work s s' ∨ env s s') start j.2
  waiting : ∀ j ∈ t.waiting, Run env start j.2
  finished : ∀ j ∈ t.finished, Run (fun s s' => work s s' ∨ env s s') start j.2 ∧ done j.2

theorem Each.own (h : Each start work env done t) (hstep : Own work done t t') :
    Each start work env done t' := by
  cases hstep with
  | @take j rest hfree hw =>
      refine ⟨?_, fun i hi => h.waiting i (by rw [hw]; exact List.mem_cons_of_mem _ hi),
        h.finished⟩
      rintro i hi
      cases hi
      have hrun := h.waiting j (by rw [hw]; exact List.mem_cons_self)
      exact Relation.ReflTransGen.mono (fun _ _ he => Or.inr he) _ _ hrun
  | @work k s s' hc hwork =>
      refine ⟨?_, h.waiting, h.finished⟩
      rintro i hi
      cases hi
      exact (h.current (k, s) hc).tail (.inl hwork)
  | @finish k s hc hdone =>
      refine ⟨fun i hi => (by cases hi), h.waiting, fun i hi => ?_⟩
      rcases List.mem_append.mp hi with hmem | hmem
      · exact h.finished i hmem
      · rw [List.mem_singleton.mp hmem]
        exact ⟨h.current (k, s) hc, hdone⟩

theorem Each.clients (h : Each start work env done t) (hstep : Clients start env t t') :
    Each start work env done t' := by
  cases hstep with
  | arrive =>
      refine ⟨h.current, fun i hi => ?_, h.finished⟩
      rcases List.mem_append.mp hi with hmem | hmem
      · exact h.waiting i hmem
      · rw [List.mem_singleton.mp hmem]
  | @served k s s' hc henv =>
      refine ⟨?_, h.waiting, h.finished⟩
      rintro i hi
      cases hi
      exact (h.current (k, s) hc).tail (.inr henv)
  | @waits i k s s' hi henv =>
      refine ⟨h.current, fun j hj => ?_, h.finished⟩
      rcases List.mem_or_eq_of_mem_set hj with hmem | rfl
      · exact h.waiting j hmem
      · exact (h.waiting (k, s) (List.mem_of_getElem? hi)).tail henv

/-! ## Draining the queue -/

/-- Whatever the server does, the clients pending keep what its work keeps. -/
theorem pending_own {P : σ → Prop} (hwork : ∀ s s', P s → work s s' → P s')
    (hstep : Own work done t t') (h : ∀ j ∈ t.pending, P j.2) : ∀ j ∈ t'.pending, P j.2 := by
  unfold pending at h ⊢
  cases hstep with
  | take hfree hw =>
      intro i hi
      exact h i (by simpa [hfree, hw] using hi)
  | @work k s s' hc hs =>
      intro i hi
      rcases List.mem_append.mp hi with hmem | hmem
      · rw [Option.toList_some, List.mem_singleton] at hmem
        rw [hmem]
        exact hwork s s' (h (k, s) (by simp [hc])) hs
      · exact h i (List.mem_append_right _ hmem)
  | finish hc _ =>
      intro i hi
      exact h i (List.mem_append_right _ hi)

/-- A client that can be finished can be let go. -/
theorem canReach_free {k : ℕ} {s : σ} (hc : t.current = some (k, s)) (h : CanReach work done s) :
    CanReach (Own work done) (fun t' => t'.current = none ∧ t'.waiting = t.waiting) t := by
  obtain ⟨s', hrun, hdone⟩ := h
  -- the work on the client is work of the server
  have hmap : Run (Own work done) { t with current := some (k, s) }
      { t with current := some (k, s') } :=
    Run.map (I := fun _ => True) (f := fun s => { t with current := some (k, s) })
      (fun _ _ _ _ => trivial) (fun s s' _ hstep => .single (.work rfl hstep)) hrun trivial
  rw [← hc] at hmap
  exact ⟨_, hmap.tail (.finish rfl hdone), rfl, rfl⟩

/-- Turns to be taken and given back before the server is idle. -/
def todo (t : Turns σ) : ℕ := 2 * t.waiting.length + t.current.toList.length

/-- If all that is pending can be finished, the server gets through its queue. -/
theorem canReach_idle {P : σ → Prop} (hwork : ∀ s s', P s → work s s' → P s')
    (hends : ∀ s, P s → CanReach work done s) (h : ∀ j ∈ t.pending, P j.2) :
    CanReach (Own work done) Idle t := by
  induction hlen : t.todo using Nat.strongRecOn generalizing t with
  | _ n ih =>
      cases hc : t.current with
      | some j =>
          have hj := hends _ (h j (by simp [pending, hc]))
          refine (canReach_free (k := j.1) (s := j.2) hc hj).trans fun u hrun hu => ?_
          have hall : ∀ i ∈ u.pending, P i.2 :=
            run_invariant (I := fun t => ∀ i ∈ t.pending, P i.2)
              (fun _ _ hI hstep => pending_own hwork hstep hI) hrun h
          refine ih u.todo ?_ hall rfl
          rw [← hlen]
          simp [todo, hc, hu.1, hu.2]
      | none =>
          cases hw : t.waiting with
          | nil => exact .here ⟨hc, hw⟩
          | cons j rest =>
              have htake : Own work done t { t with current := some j, waiting := rest } :=
                .take hc hw
              refine .head htake (ih _ ?_ (pending_own hwork htake h) rfl)
              rw [← hlen]
              simp only [todo, hc, hw, Option.toList_some, Option.toList_none, List.length_cons,
                List.length_nil]
              omega

/-- A client that the server never finishes stays with it, or ahead of the others. -/
theorem mem_pending_own {P : σ → Prop} {k : ℕ} (hwork : ∀ s s', P s → work s s' → P s')
    (hdone : ∀ s, P s → ¬ done s) (hstep : Own work done t t')
    (h : ∃ s, (k, s) ∈ t.pending ∧ P s) : ∃ s, (k, s) ∈ t'.pending ∧ P s := by
  obtain ⟨s, hmem, hs⟩ := h
  unfold pending at hmem ⊢
  cases hstep with
  | take hfree hw => exact ⟨s, by simpa [hfree, hw] using hmem, hs⟩
  | @work k' u u' hc hu =>
      rw [hc] at hmem
      rcases List.mem_append.mp hmem with hmem | hmem
      · rw [Option.toList_some, List.mem_singleton] at hmem
        cases hmem
        exact ⟨u', by simp, hwork _ _ hs hu⟩
      · exact ⟨s, List.mem_append_right _ hmem, hs⟩
  | @finish k' u hc hu =>
      rw [hc] at hmem
      rcases List.mem_append.mp hmem with hmem | hmem
      · rw [Option.toList_some, List.mem_singleton] at hmem
        cases hmem
        exact absurd hu (hdone _ hs)
      · exact ⟨s, List.mem_append_right _ hmem, hs⟩

theorem Idle.pending_eq_nil (h : t.Idle) : t.pending = [] := by
  rw [pending, h.1, h.2]
  rfl

/-! ## A client that is never finished -/

/-- The step leaves the clients pending with a number below `n` as they are. -/
def Spares (n : ℕ) (t t' : Turns σ) : Prop := ∀ j ∈ t.pending, j.1 < n → j ∈ t'.pending

/-- Steps of the server, and of the clients from the `n`-th on. -/
def Later (start : σ) (work env : σ → σ → Prop) (done : σ → Prop) (n : ℕ) (t t' : Turns σ) : Prop :=
  Own work done t t' ∨ Clients start env t t' ∧ t.Spares n t'

theorem Ordered.run {n : ℕ} (h : t.Ordered) (hrun : Run (Later start work env done n) t t') :
    t'.Ordered := by
  refine run_invariant (fun _ _ hI hstep => ?_) hrun h
  rcases hstep with hown | ⟨hclients, -⟩
  · exact hI.own hown
  · exact hI.clients hclients

/-- A client that the server never finishes stays pending, whatever comes after it. -/
theorem mem_pending_run {P : σ → Prop} {k n : ℕ} (hk : k < n)
    (hwork : ∀ s s', P s → work s s' → P s') (hdone : ∀ s, P s → ¬ done s)
    (hrun : Run (Later start work env done n) t t') (h : ∃ s, (k, s) ∈ t.pending ∧ P s) :
    ∃ s, (k, s) ∈ t'.pending ∧ P s := by
  refine run_invariant (I := fun t => ∃ s, (k, s) ∈ t.pending ∧ P s) ?_ hrun h
  rintro u u' hu (hown | ⟨-, hspares⟩)
  · exact mem_pending_own hwork hdone hown hu
  · obtain ⟨s, hmem, hs⟩ := hu
    exact ⟨s, hspares _ hmem hk, hs⟩

/-- Nobody is served or done before a client that came earlier is. -/
theorem Ordered.le_of_pending (h : t.Ordered) {i j : ℕ × σ} (hj : j ∈ t.pending)
    (hi : i ∈ t.finished ++ t.current.toList) : i.1 ≤ j.1 := by
  have hsorted : ((t.finished ++ t.pending).map Prod.fst).Pairwise (· < ·) := by
    rw [h]
    exact List.pairwise_lt_range
  rw [List.map_append, List.pairwise_append] at hsorted
  obtain ⟨-, hpending, hbefore⟩ := hsorted
  rcases List.mem_append.mp hi with hdone | hcurrent
  · exact (hbefore i.1 (List.mem_map_of_mem hdone) j.1 (List.mem_map_of_mem hj)).le
  -- the one served is the first of those pending
  · have hsome : t.current = some i := by simpa using hcurrent
    have hcons : t.pending = i :: t.waiting := by
      rw [pending, hsome]
      rfl
    rw [hcons] at hj hpending
    rw [List.map_cons, List.pairwise_cons] at hpending
    rcases List.mem_cons.mp hj with rfl | hmem
    · exact le_rfl
    · exact (hpending.1 j.1 (List.mem_map_of_mem hmem)).le

theorem Ordered.lt_arrivals (h : t.Ordered) {j : ℕ × σ} (hj : j ∈ t.pending) :
    j.1 < t.arrivals := by
  have hmem : j.1 ∈ (t.finished ++ t.pending).map Prod.fst :=
    List.mem_map_of_mem (List.mem_append_right _ hj)
  rw [h] at hmem
  exact List.mem_range.mp hmem

end Turns

end Andri.Lib
