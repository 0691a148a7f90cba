import PgCutover.Lib.LittleEndian
import PgCutover.Transam.TransactionId

/-!
# Protocol messages

The routines that append to a message and those that take values from the front of one. The
encodings of both sides are equal, so that no text is converted.
-/

namespace PgCutover.LogicalRep

open List

open Lib (Reader Reads beBytes ofBeBytes)

/-- A string without a null byte. -/
structure CString where
  bytes : List UInt8
  noNul : ∀ b ∈ bytes, b ≠ 0
  deriving DecidableEq

/-- Bytes whose number is an `int`. -/
structure ByteString where
  bytes : List UInt8
  short : bytes.length < 2 ^ 31

/-! ### Writing -/

/-- `pq_sendint16`. -/
def pqSendint16 (i : UInt16) : List UInt8 := beBytes 2 i.toNat

/-- `pq_sendint32`. -/
def pqSendint32 (i : UInt32) : List UInt8 := beBytes 4 i.toNat

/-- The string and its terminator. -/
def pqSendstring (str : CString) : List UInt8 := str.bytes ++ [0]

/-- The length as four bytes, then the bytes. -/
def pqSendcounted (value : ByteString) : List UInt8 :=
  beBytes 4 value.bytes.length ++ value.bytes

/-! ### Reading -/

/-- `pq_getmsgbyte`. -/
def pqGetmsgbyte : Reader UInt8 := fun msg =>
  match msg with
  | [] => .error "no data left in message"
  | b :: rest => .ok (b, rest)

/-- `pq_copymsgbytes`. -/
def pqCopymsgbytes (datalen : ℕ) : Reader (List UInt8) := fun msg =>
  if datalen > msg.length then .error "insufficient data left in message"
  else .ok (msg.take datalen, msg.drop datalen)

/-- `pq_getmsgint`. -/
def pqGetmsgint (b : ℕ) : Reader ℕ := do
  return ofBeBytes (← pqCopymsgbytes b)

/-- The bytes up to the first null byte, which has to be within the message. -/
def pqGetmsgstring : Reader (List UInt8) := fun msg =>
  let str := msg.takeWhile (· ≠ 0)
  if str.length ≥ msg.length then .error "invalid string in message"
  else .ok (str, msg.drop (str.length + 1))

/-! ### What is written is read back -/

theorem reads_byte (b : UInt8) : Reads pqGetmsgbyte [b] b := fun _ => rfl

theorem reads_bytes (bytes : List UInt8) : Reads (pqCopymsgbytes bytes.length) bytes bytes := by
  intro _
  rw [pqCopymsgbytes, if_neg, take_left, drop_left]
  rw [length_append]
  omega

theorem reads_beBytes {w n : ℕ} (h : n < 256 ^ w) : Reads (pqGetmsgint w) (beBytes w n) n := by
  have hbytes := reads_bytes (beBytes w n)
  rw [Lib.length_beBytes] at hbytes
  refine hbytes.map ?_
  rw [Lib.ofBeBytes_beBytes h]
  exact Reads.pure n

theorem reads_int16 (i : UInt16) : Reads (pqGetmsgint 2) (pqSendint16 i) i.toNat :=
  reads_beBytes i.toNat_lt

theorem reads_int32 (i : UInt32) : Reads (pqGetmsgint 4) (pqSendint32 i) i.toNat :=
  reads_beBytes i.toNat_lt

theorem reads_string (str : CString) : Reads pqGetmsgstring (pqSendstring str) str.bytes := by
  intro rest
  have htake : (str.bytes ++ (0 :: rest)).takeWhile (· ≠ 0) = str.bytes := by
    rw [takeWhile_append_of_pos (fun b hb => by simpa using str.noNul b hb),
      takeWhile_cons_of_neg (by simp), append_nil]
  have hmsg : pqSendstring str ++ rest = str.bytes ++ (0 :: rest) := by
    rw [pqSendstring, append_assoc, singleton_append]
  rw [hmsg, pqGetmsgstring, htake, if_neg]
  · rw [drop_append, drop_of_length_le (Nat.le_succ _), Nat.add_sub_cancel_left]
    rfl
  · rw [length_append, length_cons]
    omega

end PgCutover.LogicalRep
