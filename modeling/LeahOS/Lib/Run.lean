import Mathlib.Data.List.Induction

/-!
# Runs of a labelled transition system

A system is a relation `T s e s'`: in state `s` the event `e` may lead to `s'`.
`Run T s es s'` says that the events `es`, in this order, lead from `s` to `s'`.
Nothing here knows what the states or the events are.

`Restrict ok T` keeps the steps of `T` that meet a condition, so a run of it is a
run of `T` all of whose steps meet the condition. `Run.invariant` carries every
safety result: what every step preserves, every run preserves. `Run.simulation`
carries every refinement: when each step of one system can be answered by a step of
another under the same event, each run can. `Run.of_foldlM` is for systems whose steps
are a partial function: there a run is computed, and `Run.of_guarded` computes one whose
steps meet a condition. `Run.of_foldl` is for systems whose steps are a function.
-/

namespace LeahOS.Lib
open List Option
variable {σ ε : Type*}

/-- The events `es` lead from the first state to the second. -/
inductive Run (T : σ → ε → σ → Prop) : σ → List ε → σ → Prop
  | nil (s : σ) : Run T s [] s
  | snoc {s t u : σ} {es : List ε} {e : ε} (hRun : Run T s es t) (hStep : T t e u) :
      Run T s (es ++ [e]) u

/-- The steps of `T` that meet the condition `ok` in the state they start from. -/
def Restrict (ok : σ → ε → Prop) (T : σ → ε → σ → Prop) : σ → ε → σ → Prop :=
  fun s e s' => ok s e ∧ T s e s'

variable {T : σ → ε → σ → Prop} {ok : σ → ε → Prop} {next : σ → ε → Option σ} {s s' t u : σ}
  {es es' : List ε} {e : ε}

theorem Run.nil_inv (hRun : Run T s [] s') : s' = s := by
  generalize hEs : ([] : List ε) = es at hRun
  cases hRun with
  | nil => rfl
  | snoc _ _ => simp at hEs

/-- The last step of a run. -/
theorem Run.snoc_inv (es : List ε)
    (hRun : Run T s (es ++ [e]) u) : ∃ t, Run T s es t ∧ T t e u := by
  generalize hEs : es ++ [e] = es' at hRun
  cases hRun with
  | nil => simp at hEs
  | @snoc t _ es'' e' hRun hStep =>
    obtain ⟨rfl, hLast⟩ := append_inj' hEs rfl
    obtain rfl := singleton_inj.mp hLast
    exact ⟨t, hRun, hStep⟩

/-- One run after another. -/
theorem Run.append (hRun : Run T s es t) (hThen : Run T t es' u) : Run T s (es ++ es') u := by
  induction hThen with
  | nil =>
    rw [append_nil]
    exact hRun
  | snoc _ hStep ih =>
    rw [← append_assoc]
    exact .snoc ih hStep

/-- A step and then a run. -/
theorem Run.cons (hStep : T s e t) (hRun : Run T t es u) : Run T s (e :: es) u :=
  Run.append (.snoc (.nil s) hStep) hRun

/-- What every step preserves holds in every state a run reaches. -/
theorem Run.invariant {Inv : σ → Prop} (hStep : ∀ s e s', Inv s → T s e s' → Inv s')
    (hRun : Run T s es s') (hInit : Inv s) : Inv s' := by
  induction hRun with
  | nil => exact hInit
  | snoc _ hLast ih => exact hStep _ _ _ ih hLast

variable {I P : σ → Prop} {c : Prop}

/-- The same where the steps need the condition they meet. -/
theorem Run.invariant_of (hRun : Run (Restrict ok T) s es s')
    (hStep : ∀ s e s', I s → ok s e → T s e s' → I s') (hInit : I s) : I s' :=
  hRun.invariant (fun s e s' h hOk => hStep s e s' h hOk.1 hOk.2) hInit

/-- The same where they need another invariant, of all steps, too. -/
theorem Run.invariant_with {J : σ → Prop} (hRun : Run (Restrict ok T) s es s')
    (hAll : ∀ s e s', J s → T s e s' → J s')
    (hStep : ∀ s e s', J s → I s → ok s e → T s e s' → I s') (hFirst : J s) (hInit : I s) :
    J s' ∧ I s' := by
  refine hRun.invariant_of (I := fun s => J s ∧ I s) (fun s e s' h hOk hT => ?_) ⟨hFirst, hInit⟩
  exact ⟨hAll s e s' h.1 hT, hStep s e s' h.1 h.2 hOk hT⟩

/-- A run all of whose steps meet a condition is a run. -/
theorem Run.of_restrict (hRun : Run (Restrict ok T) s es s') : Run T s es s' := by
  induction hRun with
  | nil => exact .nil _
  | snoc _ hLast ih => exact .snoc ih hLast.2

/-- A relation every step keeps, with an answer of the abstract system `A`, is kept
by every run. -/
theorem Run.simulation {α : Type*} {A : α → ε → α → Prop} {R : σ → α → Prop}
    (hStep : ∀ s a e s', R s a → T s e s' → ∃ a', A a e a' ∧ R s' a')
    (hRun : Run T s es s') {a : α} (hInit : R s a) :
    ∃ a', Run A a es a' ∧ R s' a' := by
  induction hRun with
  | nil => exact ⟨a, .nil a, hInit⟩
  | snoc _ hLast ih =>
    obtain ⟨a', hAbs, hRel⟩ := ih
    obtain ⟨a'', hAnswer, hRel'⟩ := hStep _ _ _ _ hRel hLast
    exact ⟨a'', .snoc hAbs hAnswer, hRel'⟩

/-- Where a partial function takes a list of events, the steps it computes lead. -/
theorem Run.of_foldlM (hSound : ∀ s e s', next s e = some s' → T s e s') (es : List ε)
    (hEs : es.foldlM next s = some s') : Run T s es s' := by
  induction es using List.reverseRecOn generalizing s' with
  | nil =>
    obtain rfl := some.inj hEs
    exact .nil s
  | append_singleton es e ih =>
    rw [foldlM_append] at hEs
    obtain ⟨t, hBefore, hLast⟩ := bind_eq_some_iff.mp hEs
    obtain ⟨u, hNext, hNil⟩ := bind_eq_some_iff.mp hLast
    obtain rfl := some.inj hNil
    exact .snoc (ih hBefore) (hSound _ _ _ hNext)

/-- Where a guarded step leads, its guard held. -/
theorem guard_inv [Decidable c] (hNext : (if c then some s else none) = some s') : c ∧ s = s' := by
  obtain ⟨hGuard, hSome⟩ := ite_none_right_eq_some.mp hNext
  exact ⟨hGuard, some.inj hSome⟩

theorem unless_inv [Decidable c] (hNext : (if c then none else some s) = some s') :
    ¬ c ∧ s = s' := by
  obtain ⟨hGuard, hSome⟩ := ite_none_left_eq_some.mp hNext
  exact ⟨hGuard, some.inj hSome⟩

theorem of_guard [Decidable c] (hNext : (if c then some s else none) = some s') (hThen : c → P s) :
    P s' := by
  obtain ⟨hGuard, rfl⟩ := guard_inv hNext
  exact hThen hGuard

/-- A total function takes any list of events somewhere. -/
theorem Run.of_foldl (f : σ → ε → σ) (s : σ) (es : List ε) :
    Run (fun s e s' => s' = f s e) s es (es.foldl f s) := by
  induction es generalizing s with
  | nil => exact .nil s
  | cons e es ih => exact .cons rfl (ih (f s e))

/-- The partial function that stops where a step would not meet the condition. -/
def guarded (ok : σ → ε → Prop) [∀ s e, Decidable (ok s e)] (next : σ → ε → Option σ) :
    σ → ε → Option σ :=
  fun s e => if ok s e then next s e else none

theorem Run.of_guarded [∀ s e, Decidable (ok s e)]
    (hSound : ∀ s e s', next s e = some s' → T s e s')
    (es : List ε) (hEs : es.foldlM (guarded ok next) s = some s') : Run (Restrict ok T) s es s' := by
  refine .of_foldlM (fun s e s' hNext => ?_) es hEs
  obtain ⟨hOk, hNext⟩ := ite_none_right_eq_some.mp hNext
  exact ⟨hOk, hSound s e s' hNext⟩

/-- A run that is evaluated, with what is seen where it ends. -/
theorem Run.exists_of_foldlM (hSound : ∀ s e s', next s e = some s' → T s e s') [DecidablePred P]
    (hEnd : (es.foldlM next s).any (fun s' => decide (P s')) = true) :
    ∃ s', Run T s es s' ∧ P s' := by
  obtain ⟨s', hEs, hP⟩ := (Option.any_eq_true _ _).mp hEnd
  exact ⟨s', .of_foldlM hSound es hEs, of_decide_eq_true hP⟩

theorem Run.exists_of_guarded [∀ s e, Decidable (ok s e)]
    (hSound : ∀ s e s', next s e = some s' → T s e s') [DecidablePred P]
    (hEnd : (es.foldlM (guarded ok next) s).any (fun s' => decide (P s')) = true) :
    ∃ s', Run (Restrict ok T) s es s' ∧ P s' := by
  obtain ⟨s', hEs, hP⟩ := (Option.any_eq_true _ _).mp hEnd
  exact ⟨s', .of_guarded hSound es hEs, of_decide_eq_true hP⟩

end LeahOS.Lib
