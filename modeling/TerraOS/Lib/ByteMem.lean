import TerraOS.Lib.Word

/-! Byte-addressed memory.

    A memory is a total function from addresses to bytes. Multi-byte fields are little endian. Every
    lemma here is of one of three kinds: what a load returns after a store to the same place, that a
    load sees only the bytes it covers (`loadLE_congr`), and that a store changes only the bytes it
    covers (`storeLE_out`). -/

namespace Lib

/-- Byte-addressed memory. -/
abbrev Mem := ℕ → UInt8

namespace Mem

/-- The `n`-byte little-endian number at `a`. -/
def loadLE (m : Mem) (a : ℕ) : ℕ → ℕ
  | 0 => 0
  | n + 1 => (m a).toNat + 256 * loadLE m (a + 1) n

/-- Store the low `n` bytes of `v` at `a`, little endian. -/
def storeLE (m : Mem) (a n v : ℕ) : Mem := fun x =>
  if a ≤ x ∧ x < a + n then UInt8.ofNat (v / 256 ^ (x - a)) else m x

/-- Store one byte. -/
def store8 (m : Mem) (a : ℕ) (b : UInt8) : Mem := fun x => if x = a then b else m x

/-- Load a 64-bit field. -/
def load64 (m : Mem) (a : ℕ) : ℕ := m.loadLE a 8

/-- Store a 32-bit field. -/
def store32 (m : Mem) (a v : ℕ) : Mem := m.storeLE a 4 v

/-- Store a 64-bit field. -/
def store64 (m : Mem) (a v : ℕ) : Mem := m.storeLE a 8 v

theorem loadLE_lt (m : Mem) : ∀ (n a : ℕ), m.loadLE a n < 256 ^ n
  | 0, _ => by simp [loadLE]
  | n + 1, a => by
    have h := loadLE_lt m n (a + 1)
    have hb := (m a).toNat_lt
    rw [loadLE, pow_succ]; omega

theorem load64_lt (m : Mem) (a : ℕ) : m.load64 a < 2 ^ 64 := loadLE_lt m 8 a

/-- A load depends on the bytes it covers and on no other. -/
theorem loadLE_congr {m m' : Mem} : ∀ {n a b : ℕ}, (∀ i < n, m' (b + i) = m (a + i)) →
    m'.loadLE b n = m.loadLE a n
  | 0, _, _, _ => rfl
  | n + 1, a, b, h => by
    rw [loadLE, loadLE, ← Nat.add_zero b, ← Nat.add_zero a, h 0 (by omega), Nat.add_zero,
      Nat.add_zero]
    rw [loadLE_congr (n := n) (a := a + 1) (b := b + 1) fun i hi => by
      have := h (i + 1) (by omega)
      rwa [show b + (i + 1) = b + 1 + i by omega, show a + (i + 1) = a + 1 + i by omega] at this]

theorem load64_congr {m m' : Mem} {a : ℕ} (h : ∀ x, a ≤ x → x < a + 8 → m' x = m x) :
    m'.load64 a = m.load64 a :=
  loadLE_congr fun i hi => h (a + i) (by omega) (by omega)

theorem storeLE_out {m : Mem} {a n v x : ℕ} (h : x < a ∨ a + n ≤ x) : m.storeLE a n v x = m x :=
  if_neg (by omega)

theorem store64_out {m : Mem} {a v x : ℕ} (h : x < a ∨ a + 8 ≤ x) : m.store64 a v x = m x :=
  storeLE_out h

theorem store8_out {m : Mem} {a x : ℕ} {b : UInt8} (h : x ≠ a) : m.store8 a b x = m x := if_neg h

@[simp] theorem store8_self (m : Mem) (a : ℕ) (b : UInt8) : m.store8 a b a = b := if_pos rfl

/-- The bytes of a stored number read back as that number, reduced to the field's width. -/
theorem loadLE_storeLE_aux (m : Mem) (a n v : ℕ) :
    ∀ (k j : ℕ), j + k = n → (m.storeLE a n v).loadLE (a + j) k = v / 256 ^ j % 256 ^ k
  | 0, j, _ => by simp [loadLE, Nat.mod_one]
  | k + 1, j, h => by
    have ih := loadLE_storeLE_aux m a n v k (j + 1) (by omega)
    have hb : m.storeLE a n v (a + j) = UInt8.ofNat (v / 256 ^ j) := by
      rw [storeLE, if_pos ⟨by omega, by omega⟩, Nat.add_sub_cancel_left]
    rw [loadLE, hb, Nat.add_assoc, ih, UInt8.toNat_ofNat', pow_succ 256 j, ← Nat.div_div_eq_div_mul,
      pow_succ' 256 k, Nat.mod_mul]

/-- The bytes of a number that is loaded. -/
theorem byte_of_loadLE (m : Mem) (n a i : ℕ) (hi : i < n) : m (a + i) = UInt8.ofNat (m.loadLE a n / 256 ^ i) := by
  induction n generalizing a i with
  | zero => exact absurd hi (Nat.not_lt_zero i)
  | succ n ih =>
    have hb := (m a).toNat_lt
    rw [loadLE]
    cases i with
    | zero =>
      apply UInt8.toNat_inj.mp
      rw [Nat.add_zero, pow_zero, Nat.div_one, UInt8.toNat_ofNat']
      omega
    | succ i =>
      have hdiv : ((m a).toNat + 256 * m.loadLE (a + 1) n) / 256 ^ (i + 1) = m.loadLE (a + 1) n / 256 ^ i := by
        rw [pow_succ', ← Nat.div_div_eq_div_mul]
        congr 1
        omega
      rw [hdiv, ← ih (a + 1) i (by omega)]
      congr 1
      omega

theorem loadLE_storeLE (m : Mem) (a n v : ℕ) : (m.storeLE a n v).loadLE a n = v % 256 ^ n := by
  simpa using loadLE_storeLE_aux m a n v n 0 (by omega)

theorem load64_store64 {m : Mem} {a v : ℕ} (h : v < 2 ^ 64) : (m.store64 a v).load64 a = v := by
  rw [load64, store64, loadLE_storeLE]
  exact Nat.mod_eq_of_lt h

/-- The second of two stores to one place is the one that counts. -/
theorem store64_store64 (m : Mem) (a v w : ℕ) : (m.store64 a v).store64 a w = m.store64 a w := by
  funext x
  unfold store64 storeLE
  split <;> rfl

theorem load64_store64_out {m : Mem} {a b v : ℕ} (h : b + 8 ≤ a ∨ a + 8 ≤ b) :
    (m.store64 a v).load64 b = m.load64 b :=
  load64_congr fun x h1 h2 => store64_out (by omega)

theorem load64_store8_out {m : Mem} {a b : ℕ} {v : UInt8} (h : b + 8 ≤ a ∨ a < b) :
    (m.store8 a v).load64 b = m.load64 b :=
  load64_congr fun x h1 h2 => store8_out (by omega)

/-- A load in two parts. -/
theorem loadLE_add (m : Mem) : ∀ (j k a : ℕ), m.loadLE a (j + k) = m.loadLE a j + 256 ^ j * m.loadLE (a + j) k
  | 0, k, a => by simp [loadLE]
  | j + 1, k, a => by
    rw [Nat.add_right_comm, loadLE, loadLE, loadLE_add m j k (a + 1), pow_succ',
      show a + 1 + j = a + (j + 1) by omega]
    ring

theorem store32_out {m : Mem} {a v x : ℕ} (h : x < a ∨ a + 4 ≤ x) : m.store32 a v x = m x :=
  storeLE_out h

/-- A store to the low half of a 64-bit field. -/
theorem load64_store32_low {m : Mem} {a v : ℕ} (h : v < 2 ^ 32) :
    (m.store32 a v).load64 a = v + 2 ^ 32 * (m.load64 a / 2 ^ 32) := by
  have hhigh : (m.store32 a v).loadLE (a + 4) 4 = m.loadLE (a + 4) 4 :=
    loadLE_congr fun i hi => store32_out (by omega)
  have hlow : (m.store32 a v).loadLE a 4 = v := by
    rw [store32, loadLE_storeLE]
    exact Nat.mod_eq_of_lt h
  have hlt := loadLE_lt m 4 a
  rw [load64, load64, show 8 = 4 + 4 from rfl, loadLE_add, loadLE_add, hhigh, hlow]
  omega

/-- A store to the high half of a 64-bit field. -/
theorem load64_store32_high {m : Mem} {a v : ℕ} (h : v < 2 ^ 32) :
    (m.store32 (a + 4) v).load64 a = m.load64 a % 2 ^ 32 + 2 ^ 32 * v := by
  have hhigh : (m.store32 (a + 4) v).loadLE (a + 4) 4 = v := by
    rw [store32, loadLE_storeLE]
    exact Nat.mod_eq_of_lt h
  have hlow : (m.store32 (a + 4) v).loadLE a 4 = m.loadLE a 4 :=
    loadLE_congr fun i hi => store32_out (by omega)
  have hlt := loadLE_lt m 4 a
  rw [load64, load64, show 8 = 4 + 4 from rfl, loadLE_add, loadLE_add, hhigh, hlow]
  omega

theorem load64_store32_out {m : Mem} {a b v : ℕ} (h : b + 8 ≤ a ∨ a + 4 ≤ b) :
    (m.store32 a v).load64 b = m.load64 b :=
  load64_congr fun x h1 h2 => store32_out (by omega)

/-! ### Strings of bytes -/

/-- The `n` bytes at `a`. -/
def bytes (m : Mem) (a n : ℕ) : List UInt8 := (List.range n).map fun i => m (a + i)

@[simp] theorem length_bytes (m : Mem) (a n : ℕ) : (m.bytes a n).length = n := by
  rw [bytes, List.length_map, List.length_range]

theorem getElem?_bytes (m : Mem) (a : ℕ) {n i : ℕ} (hi : i < n) : (m.bytes a n)[i]? = some (m (a + i)) := by
  rw [bytes, List.getElem?_map, List.getElem?_range hi, Option.map_some]

theorem bytes_congr {m m' : Mem} {a b n : ℕ} (h : ∀ i < n, m' (b + i) = m (a + i)) : m'.bytes b n = m.bytes a n :=
  List.map_congr_left fun i hi => h i (List.mem_range.mp hi)

theorem bytes_store8 (m : Mem) (a : ℕ) (b : UInt8) {n i : ℕ} (hi : i < n) :
    (m.store8 (a + i) b).bytes a n = (m.bytes a n).set i b := by
  refine List.ext_getElem? fun j => ?_
  by_cases hj : j < n
  · rw [getElem?_bytes _ _ hj, List.getElem?_set, length_bytes, if_pos hi, getElem?_bytes _ _ hj]
    by_cases hij : i = j
    · rw [if_pos hij, hij, store8_self]
    · rw [if_neg hij, store8_out (by omega)]
  · rw [List.getElem?_eq_none (by rw [length_bytes]; omega),
      List.getElem?_eq_none (by rw [List.length_set, length_bytes]; omega)]

/-- The first bytes of a longer string. -/
theorem take_bytes (m : Mem) (a : ℕ) {n k : ℕ} (h : k ≤ n) : (m.bytes a n).take k = m.bytes a k := by
  rw [bytes, ← List.map_take, List.take_range, Nat.min_eq_left h, bytes]

end Mem

/-- A byte bus: reads and writes of single bytes over a state, either of which may fault. The flat
    memory of an allocator and the translated memory behind a page table are both buses. -/
structure Bus (σ ε : Type) where
  rd : σ → ℕ → Except ε UInt8
  wr : σ → ℕ → UInt8 → Except ε σ

/-- The bus of a flat memory, on which nothing faults. -/
def flatBus (ε : Type) : Bus Mem ε where
  rd m a := .ok (m a)
  wr m a b := .ok (m.store8 a b)

@[simp] theorem ok_bind {ε α β : Type} (a : α) (f : α → Except ε β) : (Except.ok a >>= f) = f a := rfl

@[simp] theorem error_bind {ε α β : Type} (e : ε) (f : α → Except ε β) :
    ((Except.error e : Except ε α) >>= f) = Except.error e := rfl

@[simp] theorem pure_ok {ε α : Type} (a : α) : (pure a : Except ε α) = Except.ok a := rfl

/-- Peel a computation that succeeded into its first part and the rest. -/
theorem bind_eq_ok {ε α β : Type} {x : Except ε α} {f : α → Except ε β} {b : β} :
    (x >>= f) = .ok b ↔ ∃ a, x = .ok a ∧ f a = .ok b := by
  cases x with
  | error e => simp
  | ok a => simp

end Lib
