import Mathlib.Data.List.Basic

/-!
# Characters in bytes

A code gives each character a string of bytes, and no character's bytes start those of another one.
-/

namespace PgCutover.Lib

/-- A code of characters in which no code word starts another one. -/
structure CharCode (α : Type*) where
  enc : α → List UInt8
  ne_nil : ∀ a, enc a ≠ []
  unique : ∀ a b, enc a <+: enc b → a = b

namespace CharCode

variable {α : Type*} (C : CharCode α)

/-- The bytes of a text. -/
def encode (l : List α) : List UInt8 := l.flatMap C.enc

@[simp] theorem encode_nil : C.encode [] = [] := rfl

@[simp] theorem encode_cons (a : α) (l : List α) : C.encode (a :: l) = C.enc a ++ C.encode l := by
  rw [encode, List.flatMap_cons, encode]

/-- The first byte of a character is the first byte of a text that starts with it. -/
theorem exists_cons (a : α) :
    ∃ b bs, C.enc a = b :: bs ∧ ∀ l, C.encode (a :: l) = b :: (bs ++ C.encode l) := by
  obtain ⟨b, bs, hb⟩ := List.exists_cons_of_ne_nil (C.ne_nil a)
  refine ⟨b, bs, hb, fun l => ?_⟩
  rw [encode_cons, hb, List.cons_append]

end CharCode

/-- Every byte is a character. -/
def singleByte : CharCode UInt8 where
  enc b := [b]
  ne_nil _ := List.cons_ne_nil _ _
  unique _ _ h := (List.cons_prefix_cons.mp h).1

/-- The UTF-8 code. -/
def utf8 : CharCode Char where
  enc := String.utf8EncodeChar
  ne_nil _ := String.utf8EncodeChar_ne_nil
  unique a b h := by
    obtain ⟨rest, h⟩ := h
    have ha : ByteArray.utf8DecodeChar? _ 0 = _ :=
      ByteArray.utf8DecodeChar?_utf8EncodeChar_append (b := rest.toByteArray) (c := a)
    have hb : ByteArray.utf8DecodeChar? _ 0 = _ :=
      ByteArray.utf8DecodeChar?_utf8EncodeChar_append (b := ByteArray.empty) (c := b)
    rw [← List.toByteArray_append, h] at ha
    rw [ByteArray.append_empty, ha] at hb
    exact Option.some.inj hb

end PgCutover.Lib
