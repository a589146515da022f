import TerraOS.Lib.ByteMem

/-! Runs of a fallible step function.

    `Run ok step s as t`: from `s`, the actions `as` are taken one after another, each admitted by `ok`
    in the state it is taken in, none faulting, ending in `t`. One rule is needed of runs: a property
    that every admitted step keeps holds at the end of every run. A loop over a list is a fold in
    `Except`, with the same rule. `Ends` speaks of both ends of a computation, of its result and of the
    fault that stops it short. -/

namespace Lib

variable {σ α ε : Type}

/-- Finite runs; actions are listed in the order they are taken. -/
inductive Run (ok : σ → α → Prop) (step : σ → α → Except ε σ) : σ → List α → σ → Prop
  | nil (s : σ) : Run ok step s [] s
  | snoc {s t u : σ} {as : List α} {a : α} : Run ok step s as t → ok t a → step t a = .ok u →
      Run ok step s (as ++ [a]) u

namespace Run

variable {ok ok' : σ → α → Prop} {step : σ → α → Except ε σ} {s t : σ} {as : List α}

/-- The invariant rule. -/
theorem invariant {I : σ → Prop} (h : Run ok step s as t) (h0 : I s)
    (hstep : ∀ t a u, I t → ok t a → step t a = .ok u → I u) : I t := by
  induction h with
  | nil => exact h0
  | snoc _ hok hst ih => exact hstep _ _ _ ih hok hst

/-- A run under a stricter admission is a run under the laxer one. -/
theorem mono (h : Run ok step s as t) (hle : ∀ s a, ok s a → ok' s a) : Run ok' step s as t := by
  induction h with
  | nil => exact .nil _
  | snoc _ hok hst ih => exact .snoc ih (hle _ _ hok) hst

theorem cons {a : α} {u : σ} (hok : ok s a) (hst : step s a = .ok t) (h : Run ok step t as u) :
    Run ok step s (a :: as) u := by
  induction h with
  | nil => exact .snoc (.nil s) hok hst
  | snoc _ hok' hst' ih => exact .snoc ih hok' hst'

theorem append {bs : List α} {u : σ} (h : Run ok step s as t) (h' : Run ok step t bs u) :
    Run ok step s (as ++ bs) u := by
  induction h' with
  | nil => rwa [List.append_nil]
  | snoc _ hok hst ih =>
    rw [← List.append_assoc]
    exact .snoc ih hok hst

/-- Carry out a list of actions, checking that each is admitted. -/
def perform (ok : σ → α → Prop) [∀ s a, Decidable (ok s a)] (step : σ → α → Except ε σ) :
    σ → List α → Option σ
  | s, [] => some s
  | s, a :: as =>
    if ok s a then
      match step s a with
      | .ok t => perform ok step t as
      | .error _ => none
    else none

/-- A performed list of actions is a run. -/
theorem of_perform [∀ s a, Decidable (ok s a)] : ∀ {as : List α} {s t : σ},
    perform ok step s as = some t → Run ok step s as t
  | [], s, t, h => by
    simp only [perform, Option.some.injEq] at h
    exact h ▸ .nil s
  | a :: as, s, t, h => by
    rw [perform] at h
    by_cases hok : ok s a
    · rw [if_pos hok] at h
      cases hs : step s a with
      | ok u => rw [hs] at h; exact .cons hok hs (of_perform h)
      | error e => rw [hs] at h; cases h
    · rw [if_neg hok] at h; cases h

end Run

/-! ### Both ends of a computation -/

/-- The result satisfies `I`, or the error `E`. -/
inductive Ends (I : α → Prop) (E : ε → Prop) : Except ε α → Prop
  | ok {a : α} (h : I a) : Ends I E (.ok a)
  | error {e : ε} (h : E e) : Ends I E (.error e)

section ends
variable {β : Type} {I I' : α → Prop} {J : β → Prop} {E : ε → Prop} {x : Except ε α}

theorem Ends.of_ok {a : α} (h : Ends I E x) (hx : x = .ok a) : I a := by
  subst hx
  cases h with
  | ok h => exact h

theorem Ends.of_error {e : ε} (h : Ends I E x) (hx : x = .error e) : E e := by
  subst hx
  cases h with
  | error h => exact h

theorem Ends.imp {E' : ε → Prop} (h : Ends I E x) (hI : ∀ a, I a → I' a) (hE : ∀ e, E e → E' e) : Ends I' E' x := by
  cases h with
  | ok h => exact .ok (hI _ h)
  | error h => exact .error (hE _ h)

/-- One computation after another. -/
theorem Ends.bind {f : α → Except ε β} (h : Ends I E x) (hf : ∀ a, I a → Ends J E (f a)) :
    Ends J E (x >>= f) := by
  cases h with
  | ok h => exact hf _ h
  | error h => exact .error h

end ends

/-! ### Folds of a fallible function -/

section fold
variable {f : σ → α → Except ε σ}

/-- The invariant rule for a fold: `I i` holds when `i` elements are done. -/
theorem foldlM_ends {E : ε → Prop} : ∀ {l : List α} {I : ℕ → σ → Prop} {s : σ},
    (∀ i (hi : i < l.length) s, I i s → Ends (I (i + 1)) E (f s l[i])) → I 0 s →
    Ends (I l.length) E (l.foldlM f s)
  | [], I, s, _, h0 => .ok h0
  | a :: l, I, s, hstep, h0 => by
    rw [List.foldlM_cons]
    exact (hstep 0 (Nat.succ_pos _) s h0).bind fun t ht => foldlM_ends (I := fun i => I (i + 1))
      (fun i hi s hs => hstep (i + 1) (Nat.succ_lt_succ hi) s hs) ht

/-- The rule for folds that end well. -/
theorem foldlM_invariant {l : List α} {I : ℕ → σ → Prop} {s s' : σ}
    (hstep : ∀ i (hi : i < l.length) s s', I i s → f s l[i] = .ok s' → I (i + 1) s') (h0 : I 0 s)
    (h : l.foldlM f s = .ok s') : I l.length s' := by
  refine (foldlM_ends (E := fun _ => True) (fun i hi s hs => ?_) h0).of_ok h
  cases hf : f s l[i] with
  | ok t => exact .ok (hstep i hi s t hs hf)
  | error e => exact .error trivial

/-- A fold none of whose steps fails under the invariant. -/
theorem foldlM_total : ∀ {l : List α} {I : ℕ → σ → Prop} {s : σ},
    (∀ i (hi : i < l.length) s, I i s → ∃ s', f s l[i] = .ok s' ∧ I (i + 1) s') → I 0 s →
    ∃ s', l.foldlM f s = .ok s' ∧ I l.length s'
  | [], I, s, _, h0 => ⟨s, rfl, h0⟩
  | a :: l, I, s, hstep, h0 => by
    obtain ⟨t, ht, hI⟩ := hstep 0 (Nat.succ_pos _) s h0
    obtain ⟨s', hs', hend⟩ := foldlM_total (I := fun i => I (i + 1)) (l := l)
      (fun i hi s hs => hstep (i + 1) (Nat.succ_lt_succ hi) s hs) hI
    have ht' : f s a = .ok t := ht
    exact ⟨s', by rw [List.foldlM_cons, ht', ok_bind, hs'], hend⟩

end fold

end Lib
