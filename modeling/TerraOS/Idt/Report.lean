import TerraOS.Idt.Delivery

/-! What an exception leaves on the screen.

    `isr_handler` writes the name of its vector to row 10 and the number to row 11, 16 digits in base 16,
    and halts. The cells of the screen are numbered row by row; the low byte of a cell is its character. -/

namespace TerraOS.Idt
open Lib Lib.Word Vmm

/-- The cells of the screen. -/
abbrev Screen := ℕ → ℕ

/-- The characters of a string, without the NUL at its end. -/
def chars (s : String) : List ℕ := s.toList.map Char.toNat

/-- A `char` as an `int`, as far as 16 bits go: it is signed. -/
def charInt (c : ℕ) : ℕ := if c < 128 then c else c + 0xFF00

/-- The loop of `print_at`. -/
def printFrom (color : ℕ) : List ℕ → ℕ → Screen → Screen
  | [], _, video => video
  | c :: str, pos, video =>
    if c = 0 then video
    else printFrom color str (pos + 1) (Function.update video pos ((color <<< 8 ||| charInt c) % 2 ^ 16))

def printAt (str : List ℕ) (x y color : ℕ) (video : Screen) : Screen := printFrom color str (y * 80 + x) video

def digits : List ℕ := chars "0123456789ABCDEF"

/-- The loop of `print_hex`, with `k` rounds left: `i` is `k + 1`. -/
def hexLoop : List ℕ → ℕ → ℕ → List ℕ
  | hex, _, 0 => hex
  | hex, n, k + 1 => hexLoop (hex.set (k + 2) (digits.getD (n &&& 0xF) 0)) (n >>> 4) k

def printHex (n x y : ℕ) (video : Screen) : Screen :=
  printAt (hexLoop (chars "0x0000000000000000") n 16) x y 0x0F video

def exceptionNames : List String := [
  "Division by Zero", "Debug", "NMI", "Breakpoint", "Overflow", "Bound Range Exceeded", "Invalid Opcode",
  "Device Not Available", "Double Fault", "Coprocessor Segment Overrun", "Invalid TSS", "Segment Not Present",
  "Stack Fault", "General Protection Fault", "Page Fault", "Reserved", "x87 FPU Error", "Alignment Check",
  "Machine Check", "SIMD Floating Point", "Virtualization", "Control Protection",
  "Reserved", "Reserved", "Reserved", "Reserved", "Reserved", "Reserved", "Reserved", "Reserved",
  "Reserved", "Reserved"]

/-- `isr_handler`, up to its `hlt`. -/
def isrHandler (intNo : ℕ) (video : Screen) : Screen :=
  let video := printAt (chars "EXCEPTION: ") 0 10 0x0C video
  let video := if intNo < 32 then printAt (chars (exceptionNames.getD intNo "")) 11 10 0x0C video else video
  let video := printAt (chars "INT#: ") 0 11 0x0C video
  printHex intNo 6 11 video

/-! ### Reading the screen -/

/-- The `n` characters from a cell on. -/
def textAt (video : Screen) (pos n : ℕ) : List ℕ := (List.range n).map fun i => video (pos + i) % 256

/-- The number that digits stand for, the highest first. -/
def hexValue (cs : List ℕ) : ℕ := cs.foldl (fun v c => 16 * v + digits.idxOf c) 0

section
variable {color pos n k j x : ℕ} {str hex : List ℕ} {video : Screen}

/-- What the strings of isr.c are made of. -/
def Ascii (str : List ℕ) : Prop := ∀ c ∈ str, 0 < c ∧ c < 128

instance : DecidablePred Ascii := fun str => inferInstanceAs (Decidable (∀ c ∈ str, 0 < c ∧ c < 128))

/-- The cells that a string goes to. -/
theorem printFrom_apply (h : Ascii str) (x : ℕ) : printFrom color str pos video x =
    if pos ≤ x ∧ x < pos + str.length then (color <<< 8 ||| str.getD (x - pos) 0) % 2 ^ 16 else video x := by
  induction str generalizing pos video with
  | nil => rw [printFrom, List.length_nil, if_neg (by omega)]
  | cons c str ih =>
    obtain ⟨⟨hc, hc'⟩, hstr⟩ := List.forall_mem_cons.mp h
    rw [printFrom, if_neg hc.ne', ih hstr, charInt, if_pos hc', List.length_cons]
    rcases lt_trichotomy x pos with hx | rfl | hx
    · rw [if_neg (by omega), if_neg (by omega), Function.update_of_ne hx.ne]
    · rw [if_neg (by omega), if_pos (by omega), Function.update_self, Nat.sub_self, List.getD_cons_zero]
    · rw [Function.update_of_ne hx.ne', show x - pos = x - (pos + 1) + 1 by omega, List.getD_cons_succ]
      by_cases hin : x < pos + (str.length + 1)
      · rw [if_pos (by omega), if_pos (by omega)]
      · rw [if_neg (by omega), if_neg (by omega)]

/-- A cell's low byte is the character. -/
theorem cell_char {c : ℕ} (hc : c < 128) : (color <<< 8 ||| c) % 2 ^ 16 % 256 = c := by
  have hor : color <<< 8 ||| c = color * 2 ^ 8 + c := by
    rw [Nat.shiftLeft_eq]
    exact or_eq_add (k := 8) (by omega) (by omega)
  rw [hor]
  omega

/-- A string that is printed is read back. -/
theorem textAt_printFrom (h : Ascii str) : textAt (printFrom color str pos video) pos str.length = str := by
  refine List.ext_getElem (by simp [textAt]) fun i hi hi' => ?_
  have hget : str.getD (pos + i - pos) 0 = str[i] := by
    rw [Nat.add_sub_cancel_left, List.getD_eq_getElem _ _ hi']
  simp only [textAt, List.getElem_map, List.getElem_range]
  rw [printFrom_apply h, if_pos (by omega), hget, cell_char (h _ (List.getElem_mem hi')).2]

/-- What is printed elsewhere leaves a text as it is. -/
theorem textAt_out (h : Ascii str) (hout : x + n ≤ pos ∨ pos + str.length ≤ x) :
    textAt (printFrom color str pos video) x n = textAt video x n := by
  refine List.map_congr_left fun i hi => ?_
  have hi := List.mem_range.mp hi
  rw [printFrom_apply h, if_neg (by omega)]

/-! ### Base 16 -/

/-- The lowest `k` digits of a number. -/
def hexDigits (n : ℕ) : ℕ → List ℕ
  | 0 => []
  | k + 1 => hexDigits (n / 16) k ++ [digits.getD (n % 16) 0]

theorem length_hexDigits (n k : ℕ) : (hexDigits n k).length = k := by
  induction k generalizing n with
  | zero => rfl
  | succ k ih => rw [hexDigits, List.length_append, ih, List.length_singleton]

theorem digits_spec : ∀ d < 16, digits.idxOf (digits.getD d 0) = d ∧ 0 < digits.getD d 0 ∧ digits.getD d 0 < 128 := by
  decide

/-- The loop fills the buffer from its end. -/
theorem hexLoop_eq {p mid q : List ℕ} (hp : p.length = 2) (hmid : mid.length = k) :
    hexLoop (p ++ mid ++ q) n k = p ++ hexDigits n k ++ q := by
  induction k generalizing n mid q with
  | zero =>
    obtain rfl := List.length_eq_zero_iff.mp hmid
    rfl
  | succ k ih =>
    obtain ⟨mid, c, rfl⟩ := (List.eq_nil_or_concat' mid).resolve_left (by rintro rfl; cases hmid)
    have hmid : mid.length = k := by simpa using hmid
    have hlen : (p ++ mid).length = k + 2 := by rw [List.length_append, hp, hmid, Nat.add_comm]
    have hset : (p ++ (mid ++ [c]) ++ q).set (k + 2) (digits.getD (n &&& 0xF) 0)
        = p ++ mid ++ (digits.getD (n &&& 0xF) 0 :: q) := by
      rw [← hlen, ← List.append_assoc, List.append_assoc _ [c], List.set_append_right _ _ le_rfl, Nat.sub_self]
      rfl
    have hand : n &&& 0xF = n % 16 := Nat.and_two_pow_sub_one_eq_mod n 4
    have hshift : n >>> 4 = n / 16 := Nat.shiftRight_eq_div_pow n 4
    rw [hexLoop, hset, ih hmid, hand, hshift, hexDigits]
    simp only [List.append_assoc, List.singleton_append]

/-- The digits stand for the number. -/
theorem hexValue_hexDigits (n k : ℕ) : hexValue (hexDigits n k) = n % 16 ^ k := by
  induction k generalizing n with
  | zero => rw [pow_zero, Nat.mod_one]; rfl
  | succ k ih =>
    have hlast : hexValue (hexDigits n (k + 1)) = 16 * hexValue (hexDigits (n / 16) k) + n % 16 := by
      rw [hexDigits, hexValue, List.foldl_append]
      exact congrArg _ (digits_spec _ (Nat.mod_lt _ (by decide))).1
    rw [hlast, ih, pow_succ']
    exact (Nat.mod_mul ..).symm ▸ Nat.add_comm _ _

theorem ascii_hexDigits (n k : ℕ) : Ascii (hexDigits n k) := by
  induction k generalizing n with
  | zero => exact List.forall_mem_nil _
  | succ k ih =>
    rw [hexDigits, Ascii, List.forall_mem_append, List.forall_mem_singleton]
    exact ⟨ih _, (digits_spec _ (Nat.mod_lt _ (by decide))).2⟩

/-- The string of `print_hex`. -/
theorem hexLoop_sixteen (n : ℕ) : hexLoop (chars "0x0000000000000000") n 16 = chars "0x" ++ hexDigits n 16 := by
  have h := @hexLoop_eq n 16 (chars "0x") (chars "0000000000000000") [] (by decide) (by decide)
  rw [List.append_nil, List.append_nil] at h
  exact h

/-! ### The report -/

/-- Rows 10 and 11 tell the vector, by name and by number, and the other cells are as they were. -/
structure Reported (v : ℕ) (video screen : Screen) : Prop where
  heading : textAt screen 800 11 = chars "EXCEPTION: "
  name : v < 32 → textAt screen 811 (chars (exceptionNames.getD v "")).length = chars (exceptionNames.getD v "")
  label : textAt screen 880 6 = chars "INT#: "
  number : ∃ ds, textAt screen 886 18 = chars "0x" ++ ds ∧ hexValue ds = v
  rest : ∀ x, x < 800 ∨ 838 ≤ x ∧ x < 880 ∨ 904 ≤ x → screen x = video x

theorem names_spec : ∀ v < 32, Ascii (chars (exceptionNames.getD v "")) ∧
    (chars (exceptionNames.getD v "")).length ≤ 27 := by
  decide

/-- What `print_hex` prints. -/
theorem ascii_number (v : ℕ) : Ascii (chars "0x" ++ hexDigits v 16) ∧ (chars "0x" ++ hexDigits v 16).length = 18 := by
  refine ⟨List.forall_mem_append.mpr ⟨by decide, ascii_hexDigits v 16⟩, ?_⟩
  rw [List.length_append, length_hexDigits]
  rfl

theorem isrHandler_reported {v : ℕ} (hv : v < 2 ^ 64) (video : Screen) : Reported v video (isrHandler v video) := by
  obtain ⟨H, hH⟩ : Ascii (chars "EXCEPTION: ") ∧ (chars "EXCEPTION: ").length = 11 := by decide
  obtain ⟨L, hL⟩ : Ascii (chars "INT#: ") ∧ (chars "INT#: ").length = 6 := by decide
  obtain ⟨N, hN⟩ := ascii_number v
  have hvalue : hexValue (hexDigits v 16) = v := by
    rw [hexValue_hexDigits]
    exact Nat.mod_eq_of_lt (lt_of_lt_of_le hv (by decide))
  -- row 10
  obtain ⟨row, hrow, hheading, hname, hrest⟩ : ∃ row : Screen, isrHandler v video
      = printFrom 0x0F (chars "0x" ++ hexDigits v 16) 886 (printFrom 0x0C (chars "INT#: ") 880 row) ∧
      textAt row 800 11 = chars "EXCEPTION: " ∧
      (v < 32 → textAt row 811 (chars (exceptionNames.getD v "")).length = chars (exceptionNames.getD v "")) ∧
      ∀ x, x < 800 ∨ 838 ≤ x → row x = video x := by
    simp only [isrHandler, printHex, printAt, hexLoop_sixteen]
    refine ⟨_, rfl, ?_⟩
    split
    · next hlt =>
      obtain ⟨hn, hlen⟩ := names_spec v hlt
      refine ⟨?_, fun _ => textAt_printFrom hn, fun x hx => ?_⟩
      · rw [textAt_out hn (.inl le_rfl), ← hH]
        exact textAt_printFrom H
      · rw [printFrom_apply hn, if_neg (by omega), printFrom_apply H, if_neg (by omega)]
    · next hge =>
      refine ⟨?_, fun hlt => absurd hlt hge, fun x hx => ?_⟩
      · rw [← hH]
        exact textAt_printFrom H
      · rw [printFrom_apply H, if_neg (by omega)]
  rw [hrow]
  refine ⟨?_, fun hlt => ?_, ?_, ⟨_, ?_, hvalue⟩, fun x hx => ?_⟩
  · rw [textAt_out N (.inl (by decide)), textAt_out L (.inl (by decide)), hheading]
  · have hlen := (names_spec v hlt).2
    rw [textAt_out N (.inl (by omega)), textAt_out L (.inl (by omega)), hname hlt]
  · rw [textAt_out N (.inl (by decide)), ← hL]
    exact textAt_printFrom L
  · rw [← hN]
    exact textAt_printFrom N
  · rw [printFrom_apply N, if_neg (by omega), printFrom_apply L, if_neg (by omega), hrest x (by omega)]

end

end TerraOS.Idt
