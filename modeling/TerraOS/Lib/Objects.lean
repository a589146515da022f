import TerraOS.Lib.Runs

/-! Stores of objects, and the systems that implement them.

    A store keeps byte strings under keys. Objects are made with any contents, dropped, written a byte at
    a time, and moved to another key; sizes are lower bounds. One step changes one object (`Step`). Nothing here
    says where the bytes lie. A system implements a store if each of its steps is a step of the store on
    what the system shows (`Run.trace`). What a client may then rely on is read off its own actions:
    `known` keeps the last byte written to each place, and every trace agrees with it (`trace_agrees`). -/

namespace Lib

/-- Sequences of labelled steps. -/
inductive Trace {τ β : Type} (S : τ → β → τ → Prop) : τ → List β → τ → Prop
  | nil (t : τ) : Trace S t [] t
  | snoc {t u v : τ} {bs : List β} {b : β} : Trace S t bs u → S u b v → Trace S t (bs ++ [b]) v

/-- A run of a system is a trace of what it shows. `I` is the system's invariant, `M` says which label
    an action may have. -/
theorem Run.trace {σ α ε τ β : Type} {ok : σ → α → Prop} {step : σ → α → Except ε σ} {S : τ → β → τ → Prop}
    {I : σ → Prop} {M : α → β → Prop} (view : σ → τ) {s s' : σ} {as : List α} (h : Run ok step s as s') (h0 : I s)
    (hstep : ∀ t a u, I t → ok t a → step t a = .ok u → I u ∧ ∃ b, M a b ∧ S (view t) b (view u)) :
    I s' ∧ ∃ bs, List.Forall₂ M as bs ∧ Trace S (view s) bs (view s') := by
  induction h with
  | nil => exact ⟨h0, [], .nil, .nil _⟩
  | snoc _ hok hst ih =>
    obtain ⟨hI, bs, hbs, htr⟩ := ih
    obtain ⟨hI', b, hb, hS⟩ := hstep _ _ _ hI hok hst
    exact ⟨hI', bs ++ [b], List.rel_append hbs (.cons hb .nil), .snoc htr hS⟩

/-- Labels that the actions determine. -/
theorem Run.trace_map {σ α ε τ β : Type} {ok : σ → α → Prop} {step : σ → α → Except ε σ} {S : τ → β → τ → Prop}
    {I : σ → Prop} {f : α → β} (view : σ → τ) {s s' : σ} {as : List α} (h : Run ok step s as s') (h0 : I s)
    (hstep : ∀ t a u, I t → ok t a → step t a = .ok u → I u ∧ S (view t) (f a) (view u)) :
    I s' ∧ Trace S (view s) (as.map f) (view s') := by
  obtain ⟨hI, bs, hbs, htr⟩ := h.trace (M := fun a b => b = f a) view h0 fun t a u hI hok hst =>
    ⟨(hstep t a u hI hok hst).1, f a, rfl, (hstep t a u hI hok hst).2⟩
  have hmap : as.map f = bs := by
    refine List.forall₂_eq_eq_eq ▸ List.forall₂_map_left_iff.mpr (hbs.imp fun _ _ he => he.symm)
  exact ⟨hI, hmap ▸ htr⟩

namespace Objects

variable {K : Type} [DecidableEq K]

/-- The objects, by their keys. -/
abbrev Store (K : Type) := K → Option (List UInt8)

inductive Act (K : Type) where
  | skip
  | make (k : K) (n : ℕ)
  | drop (k : K)
  | put (k : K) (i : ℕ) (b : UInt8)
  | move (k k' : K) (n : ℕ)

/-- One action. A new object has room for `n` bytes, whatever they are; one that is moved keeps the first
    `n` it had. -/
inductive Step : Store K → Act K → Store K → Prop
  | skip (σ : Store K) : Step σ .skip σ
  | make {σ : Store K} {k : K} {n : ℕ} {o : List UInt8} : σ k = none → n ≤ o.length →
      Step σ (.make k n) (Function.update σ k (some o))
  | drop {σ : Store K} {k : K} : Step σ (.drop k) (Function.update σ k none)
  | put {σ : Store K} {k : K} {o : List UInt8} {i : ℕ} (b : UInt8) : σ k = some o → i < o.length →
      Step σ (.put k i b) (Function.update σ k (some (o.set i b)))
  | move {σ : Store K} {k k' : K} {n : ℕ} {o o' : List UInt8} : σ k = some o → (k' ≠ k → σ k' = none) →
      n ≤ o'.length → o.take n <+: o' →
      Step σ (.move k k' n) (Function.update (Function.update σ k none) k' (some o'))

/-- What an action adds to what is known of the bytes. -/
def Act.learn (f : K → ℕ → Option UInt8) : Act K → K → ℕ → Option UInt8
  | .skip => f
  | .make k _ => Function.update f k fun _ => none
  | .drop k => Function.update f k fun _ => none
  | .put k i b => Function.update f k (Function.update (f k) i (some b))
  | .move k k' n => Function.update (Function.update f k fun _ => none) k' fun i => if i < n then f k i else none

/-- The bytes known after a list of actions: those written, and not lost since. -/
def known (as : List (Act K)) : K → ℕ → Option UInt8 := as.foldl Act.learn fun _ _ => none

theorem known_snoc (as : List (Act K)) (a : Act K) : known (as ++ [a]) = a.learn (known as) := by
  rw [known, List.foldl_append]
  rfl

/-- The store has the bytes that are known. -/
def Agrees (σ : Store K) (f : K → ℕ → Option UInt8) : Prop :=
  ∀ k i b, f k i = some b → ∃ o, σ k = some o ∧ o[i]? = some b

variable {σ σ' : Store K} {f : K → ℕ → Option UInt8} {a : Act K} {as : List (Act K)}

/-- An update of one key. -/
theorem Agrees.update (h : Agrees σ f) {k : K} {x : Option (List UInt8)} {g : ℕ → Option UInt8}
    (hk : ∀ i b, g i = some b → ∃ o, x = some o ∧ o[i]? = some b) :
    Agrees (Function.update σ k x) (Function.update f k g) := by
  intro q i b hq
  by_cases hqk : q = k
  · subst hqk
    rw [Function.update_self] at hq ⊢
    exact hk i b hq
  · rw [Function.update_of_ne hqk] at hq ⊢
    exact h q i b hq

theorem Agrees.forget (h : Agrees σ f) (k : K) (x : Option (List UInt8)) :
    Agrees (Function.update σ k x) (Function.update f k fun _ => none) :=
  h.update fun _ _ hg => by cases hg

theorem Agrees.step (h : Agrees σ f) (hs : Step σ a σ') : Agrees σ' (a.learn f) := by
  cases hs with
  | skip => exact h
  | make => exact h.forget _ _
  | drop => exact h.forget _ _
  | put b ho hi =>
    rename_i k o i
    refine h.update fun j c hj => ⟨_, rfl, ?_⟩
    by_cases hji : j = i
    · subst hji
      rw [Function.update_self] at hj
      rw [List.getElem?_set_self hi, hj]
    · rw [Function.update_of_ne hji] at hj
      obtain ⟨o', ho', hc⟩ := h k j c hj
      rw [ho] at ho'
      rw [List.getElem?_set_ne (Ne.symm hji), Option.some.inj ho', hc]
  | move ho hno hlen hkeep =>
    rename_i k k' n o o'
    refine (h.forget _ _).update fun j c hj => ⟨_, rfl, ?_⟩
    split at hj
    · rename_i hlt
      obtain ⟨o₁, ho₁, hc⟩ := h k j c hj
      rw [ho] at ho₁
      obtain rfl := Option.some.inj ho₁
      obtain ⟨t, rfl⟩ := hkeep
      rw [← List.getElem?_take_of_lt hlt] at hc
      rw [List.getElem?_append_left (List.getElem?_eq_some_iff.mp hc).1, hc]
    · cases hj

/-- Every byte that was written, and not lost since, is there. -/
theorem trace_agrees (h : Trace Step (fun _ => none) as σ) : Agrees σ (known as) := by
  induction h with
  | nil =>
    intro k i b hk
    cases hk
  | snoc _ hst ih =>
    rw [known_snoc]
    exact ih.step hst

end Objects

end Lib
