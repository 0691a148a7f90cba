import Mathlib.Tactic.Ring

/-!
# Numbers and readers of byte streams

Numbers as bytes in both orders, and the computations that take them from a stream.
-/

namespace PgCutover.Lib

/-!
## Little-endian numbers

`leBytes w n` are the `w` lowest bytes of a number, the lowest first, and `ofLeBytes` is the number
of some bytes.
-/

open List

/-- The lowest bytes of a number, the lowest first. -/
def leBytes : ℕ → ℕ → List UInt8
  | 0, _ => []
  | w + 1, n => UInt8.ofNat (n % 256) :: leBytes w (n / 256)

/-- The number of some bytes, the lowest first. -/
def ofLeBytes : List UInt8 → ℕ
  | [] => 0
  | b :: bytes => b.toNat + 256 * ofLeBytes bytes

@[simp] theorem length_leBytes (w n : ℕ) : (leBytes w n).length = w := by
  induction w generalizing n with
  | zero => rfl
  | succ w ih => rw [leBytes, length_cons, ih]

theorem ofLeBytes_leBytes {w n : ℕ} (h : n < 256 ^ w) : ofLeBytes (leBytes w n) = n := by
  induction w generalizing n with
  | zero =>
    rw [leBytes, ofLeBytes]
    omega
  | succ w ih =>
    have hdiv : n / 256 < 256 ^ w := by
      omega
    have hbyte : (UInt8.ofNat (n % 256)).toNat = n % 256 := by
      rw [UInt8.toNat_ofNat']
      omega
    rw [leBytes, ofLeBytes, ih hdiv]
    omega

/-- The bytes of an array of numbers. -/
def leArray (w : ℕ) (f : ℕ → ℕ) (n : ℕ) : List UInt8 :=
  (List.range n).flatMap fun i => leBytes w (f i)

/-- The number at an index of an array, from the bytes of the array. -/
def leArrayGet (w : ℕ) (bytes : List UInt8) (i : ℕ) : ℕ := ofLeBytes ((bytes.drop (w * i)).take w)

@[simp] theorem length_leArray (w : ℕ) (f : ℕ → ℕ) (n : ℕ) : (leArray w f n).length = w * n := by
  induction n with
  | zero => rfl
  | succ n ih =>
    rw [leArray] at ih ⊢
    rw [range_succ, flatMap_append, length_append, ih, flatMap_singleton,
      length_leBytes]
    ring

/-- A number of the array is recovered from its bytes. -/
theorem leArrayGet_leArray {w : ℕ} {f : ℕ → ℕ} {n i : ℕ} (hi : i < n) (h : f i < 256 ^ w) :
    leArrayGet w (leArray w f n) i = f i := by
  -- the array is what comes before the number, the number, and what comes after it
  have hsplit : leArray w f n =
      leArray w f i ++ (leBytes w (f i) ++ leArray w (fun j => f (i + 1 + j)) (n - (i + 1))) := by
    obtain ⟨k, rfl⟩ := Nat.exists_eq_add_of_le (Nat.succ_le_of_lt hi)
    have hrange : List.range (i + 1 + k) =
        List.range i ++ (i :: (List.range k).map fun j => i + 1 + j) := by
      rw [range_add, range_succ, append_assoc]
      rfl
    rw [Nat.succ_eq_add_one, Nat.add_sub_cancel_left, leArray, hrange, flatMap_append,
      flatMap_cons, flatMap_map]
    rfl
  rw [leArrayGet, hsplit, drop_left' (length_leArray w f i), take_left' (length_leBytes _ _),
    ofLeBytes_leBytes h]

/-!
## Readers of byte streams

A reader consumes bytes from the front of a stream or fails with a message.
-/

/-- A computation that consumes bytes. -/
abbrev Reader (α : Type) := StateT (List UInt8) (Except String) α

/-- `r` consumes `bytes` and gives `a`. -/
def Reads {α : Type} (r : Reader α) (bytes : List UInt8) (a : α) : Prop :=
  ∀ rest, r (bytes ++ rest) = .ok (a, rest)

section Rules

variable {α β : Type} {r : Reader α} {bytes : List UInt8} {a : α}

theorem Reads.pure (a : α) : Reads (pure a) [] a := fun _ => rfl

theorem Reads.bind {f : α → Reader β} {bytes' : List UInt8} {b : β} (hr : Reads r bytes a)
    (hf : Reads (f a) bytes' b) : Reads (r >>= f) (bytes ++ bytes') b := by
  intro rest
  have h1 := hr (bytes' ++ rest)
  rw [← List.append_assoc] at h1
  change (r (bytes ++ bytes' ++ rest) >>= fun p => f p.1 p.2) = _
  rw [h1]
  exact hf rest

/-- A reader that ends with a computation on its result. -/
theorem Reads.map {f : α → Reader β} {b : β} (hr : Reads r bytes a) (hf : Reads (f a) [] b) :
    Reads (r >>= f) bytes b := by
  have := hr.bind hf
  rwa [List.append_nil] at this

end Rules

/-- A writer that succeeds has what its first part gives. -/
theorem exists_of_bind_eq_ok {ε α β : Type} {x : Except ε α} {g : α → β} {b : β}
    (h : (x >>= fun a => pure (g a)) = Except.ok b) : ∃ a, x = .ok a ∧ g a = b := by
  cases x with
  | error => cases h
  | ok a => exact ⟨a, rfl, Except.ok.inj h⟩

/-- `n` values, one after the other. -/
def readMany {α : Type} (r : Reader α) : ℕ → Reader (List α)
  | 0 => pure []
  | n + 1 => do
    let a ← r
    let as ← readMany r n
    return a :: as

/-! ### Numbers in network order -/

/-- The bytes of a number, the highest first. -/
def beBytes (w n : ℕ) : List UInt8 := (leBytes w n).reverse

@[simp] theorem length_beBytes (w n : ℕ) : (beBytes w n).length = w := by
  rw [beBytes, List.length_reverse, length_leBytes]

/-- The number of some bytes, the highest first. -/
def ofBeBytes (bytes : List UInt8) : ℕ := ofLeBytes bytes.reverse

theorem ofBeBytes_beBytes {w n : ℕ} (h : n < 256 ^ w) : ofBeBytes (beBytes w n) = n := by
  rw [ofBeBytes, beBytes, List.reverse_reverse, ofLeBytes_leBytes h]

end PgCutover.Lib
