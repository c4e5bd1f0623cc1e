import Fbz.Bytes

/-!
# CRC-32

The CRC of gzip and ZIP comes from another crate and is a parameter: states that take bytes in any
split, and states of two pieces that combine to the state of both. `Crc32.reference` is the CRC-32
of those formats in that form.
-/

namespace Fbz

/-- A hasher of `crc32fast`. -/
structure Crc32 where
  Hasher : Type
  new : Hasher
  update : Hasher → List UInt8 → Hasher
  combine : Hasher → Hasher → Hasher
  finalize : Hasher → Nat
  update_nil : ∀ h, update h [] = h
  update_append : ∀ h xs ys, update (update h xs) ys = update h (xs ++ ys)
  combine_update : ∀ xs ys, combine (update new xs) (update new ys) = update new (xs ++ ys)
  finalize_lt : ∀ h, finalize h < 2 ^ 32

namespace Crc32

/-- `crc32fast::hash`. -/
def hash (crc : Crc32) (data : List UInt8) : Nat := crc.finalize (crc.update crc.new data)

private def shift : Nat → UInt32 → UInt32
  | 0, value => value
  | count + 1, value =>
    shift count (if value &&& 1 = 1 then value >>> 1 ^^^ 0xedb88320 else value >>> 1)

private def digest (data : List UInt8) : UInt32 :=
  data.foldl (fun value byte => shift 8 (value ^^^ UInt32.ofNat byte.toNat)) 0xffffffff ^^^ 0xffffffff

/-- The CRC-32 with the reflected polynomial 0xedb88320, kept as the bytes so far. -/
def reference : Crc32 where
  Hasher := List UInt8
  new := []
  update := (· ++ ·)
  combine := (· ++ ·)
  finalize bytes := (digest bytes).toNat
  update_nil := List.append_nil
  update_append := List.append_assoc
  combine_update _ _ := rfl
  finalize_lt bytes := (digest bytes).toNat_lt

example : reference.hash [0x31, 0x32, 0x33, 0x34, 0x35, 0x36, 0x37, 0x38, 0x39] = 0xcbf43926 := by
  decide +kernel

end Crc32

end Fbz
