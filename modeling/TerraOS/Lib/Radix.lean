import TerraOS.Lib.Word

/-! Radix trees laid out in an array of tables.

    `E n i` is entry `i` of table `n`; `child` reads an entry as a link to another table, or as none.
    Nothing in the array says which tables belong to a tree: a tree is what the paths from a root reach.
    An edit of one entry is harmless to the rest of the tree only when no table is reached by two paths
    (`InjOn`), and keeps that only when the table it links is reached by none. Paths are considered
    inside a set `S` closed under prefixes, so that one library serves trees of any depth and trees
    some of whose leaves are shared on purpose. -/

namespace Lib.Radix

variable {N I V : Type} (child : V → Option N) {E E' : N → I → V} {r f g n : N} {S : Set (List I)}
  {p q P : List I} {i j : I}

/-- The table at the end of a path. -/
def node (E : N → I → V) (r : N) : List I → Option N
  | [] => some r
  | i :: p => (child (E r i)).bind fun n => node E n p

theorem node_append (E : N → I → V) : ∀ (p q : List I) (r : N),
    node child E r (p ++ q) = (node child E r p).bind fun n => node child E n q
  | [], _, _ => rfl
  | i :: p, q, r => by
    rw [List.cons_append, node, node, Option.bind_assoc]
    congr 1
    funext n
    exact node_append E p q n

theorem node_snoc (E : N → I → V) (r : N) (p : List I) (i : I) :
    node child E r (p ++ [i]) = (node child E r p).bind fun n => child (E n i) := by
  rw [node_append]
  congr 1
  funext n
  simp [node]

/-- A path sees only the entries it passes. -/
theorem node_congr {p : List I} (h : ∀ q j n, q ++ [j] <+: p → node child E r q = some n →
    child (E' n j) = child (E n j)) : node child E' r p = node child E r p := by
  induction p using List.reverseRecOn with
  | nil => rfl
  | append_singleton p i ih =>
    have hp := ih fun q j n hq => h q j n (hq.trans (List.prefix_append p [i]))
    rw [node_snoc, node_snoc, hp]
    cases hn : node child E r p with
    | none => rfl
    | some n => exact h p i n (List.prefix_refl _) hn

/-- A set of paths with every prefix of its members. -/
def PrefixClosed (S : Set (List I)) : Prop := ∀ p q, p <+: q → q ∈ S → p ∈ S

/-- No table is reached by two of the paths. -/
def InjOn (S : Set (List I)) (E : N → I → V) (r : N) : Prop :=
  ∀ p ∈ S, ∀ q ∈ S, ∀ n, node child E r p = some n → node child E r q = some n → p = q

/-- `E'` differs from `E` on the tree, as far as links go, in the one entry at `P ++ [i]`. -/
def EditAt (S : Set (List I)) (P : List I) (i : I) (E E' : N → I → V) (r : N) : Prop :=
  ∀ q j n, q ++ [j] ∈ S → q ++ [j] ≠ P ++ [i] → node child E r q = some n →
    child (E' n j) = child (E n j)

variable {child}

/-- Paths that do not pass the edited entry lead where they led. -/
theorem EditAt.node_eq (hS : PrefixClosed S) (h : EditAt child S P i E E' r) (hp : p ∈ S)
    (hno : ¬ P ++ [i] <+: p) : node child E' r p = node child E r p := by
  refine node_congr child fun q j n hq hn => h q j n (hS _ _ hq hp) ?_ hn
  rintro heq
  exact hno (heq ▸ hq)

/-- The path that ends with the edited entry leads where that entry links. -/
theorem EditAt.node_self (hS : PrefixClosed S) (h : EditAt child S P i E E' r) (hP : P ∈ S)
    (hf : node child E r P = some f) : node child E' r (P ++ [i]) = child (E' f i) := by
  have hno : ¬ P ++ [i] <+: P := fun hle => by
    have := hle.length_le
    simp at this
  rw [node_snoc, h.node_eq hS hP hno, hf, Option.bind_some]

/-- Where every path goes after the edit, given that the paths beyond the edited entry stay. -/
theorem EditAt.node_if [DecidableEq I] (hS : PrefixClosed S) (h : EditAt child S P i E E' r)
    (hP : P ∈ S) (hf : node child E r P = some f)
    (hbeyond : ∀ p ∈ S, P ++ [i] <+: p → p ≠ P ++ [i] → node child E' r p = node child E r p)
    (hp : p ∈ S) : node child E' r p = if p = P ++ [i] then child (E' f i) else node child E r p := by
  by_cases heq : p = P ++ [i]
  · rw [if_pos heq, heq, h.node_self hS hP hf]
  · rw [if_neg heq]
    by_cases hle : P ++ [i] <+: p
    · exact hbeyond p hp hle heq
    · exact h.node_eq hS hp hle

/-- An entry that linked nothing is made to link a table that links nothing. -/
theorem EditAt.node_link [DecidableEq I] (hS : PrefixClosed S) (h : EditAt child S P i E E' r)
    (hP : P ∈ S) (hf : node child E r P = some f) (hold : child (E f i) = none)
    (hnew : child (E' f i) = some g) (hempty : ∀ j, child (E' g j) = none) (hp : p ∈ S) :
    node child E' r p = if p = P ++ [i] then some g else node child E r p := by
  rw [← hnew]
  refine h.node_if hS hP hf (fun p hp hle hne => ?_) hp
  obtain ⟨q, rfl⟩ := hle
  cases q with
  | nil => simp at hne
  | cons j q =>
    have hE : node child E r (P ++ [i]) = none := by rw [node_snoc, hf, Option.bind_some, hold]
    rw [node_append child E' (P ++ [i]), node_append child E (P ++ [i]), h.node_self hS hP hf, hnew, hE,
      Option.bind_some, node, hempty]
    rfl

/-- Redirecting one path, to nothing or to a table no path reached, makes no table reached twice. -/
theorem InjOn.redirect [DecidableEq I] {Q : List I} {c : Option N} (hinj : InjOn child S E r)
    (hnode : ∀ p ∈ S, node child E' r p = if p = Q then c else node child E r p)
    (hfresh : ∀ n, c = some n → ∀ p ∈ S, node child E r p ≠ some n) : InjOn child S E' r := by
  intro p hp q hq n hpn hqn
  rw [hnode p hp] at hpn
  rw [hnode q hq] at hqn
  by_cases h1 : p = Q
  · by_cases h2 : q = Q
    · rw [h1, h2]
    · rw [if_pos h1] at hpn
      rw [if_neg h2] at hqn
      exact absurd hqn (hfresh n hpn q hq)
  · rw [if_neg h1] at hpn
    by_cases h2 : q = Q
    · rw [if_pos h2] at hqn
      exact absurd hpn (hfresh n hqn p hp)
    · rw [if_neg h2] at hqn
      exact hinj p hp q hq n hpn hqn

/-- Paths of at most `d` steps. -/
def upTo (I : Type) (d : ℕ) : Set (List I) := {p | p.length ≤ d}

theorem upTo_prefixClosed (d : ℕ) : PrefixClosed (upTo I d) :=
  fun _ _ h hq => le_trans h.length_le hq

end Lib.Radix
