import Fbz.Bytes

/-!
# XXH32

The hash comes from another crate and is a parameter of the LZ4 model: a state that depends on
the bytes written to it and not on how they were split. `XxHash32.reference` is the published
algorithm in that form.
-/

namespace Fbz.Lz4

/-- A streaming XXH32 with seed zero. -/
structure XxHash32 where
  Hasher : Type
  withSeed : Hasher
  write : Hasher → List UInt8 → Hasher
  finish : Hasher → Nat
  write_nil : ∀ h, write h [] = h
  write_append : ∀ h xs ys, write (write h xs) ys = write h (xs ++ ys)
  finish_lt : ∀ h, finish h < 2 ^ 32

namespace XxHash32

def xxhash32 (xxh : XxHash32) (data : List UInt8) : Nat :=
  xxh.finish (xxh.write xxh.withSeed data)

private def prime1 : UInt32 := 2654435761
private def prime2 : UInt32 := 2246822519
private def prime3 : UInt32 := 3266489917
private def prime4 : UInt32 := 668265263
private def prime5 : UInt32 := 374761393

private def rotateLeft (x n : UInt32) : UInt32 := x <<< n ||| x >>> (32 - n)

private def lane (bytes : List UInt8) : UInt32 := UInt32.ofNat (leNat (bytes.take 4))

private def round (acc : UInt32) (bytes : List UInt8) : UInt32 :=
  rotateLeft (acc + lane bytes * prime2) 13 * prime1

/-- Full stripes of sixteen bytes; returns the accumulator and the rest. -/
private def stripes (a b c d : UInt32) (bytes : List UInt8) : UInt32 × List UInt8 :=
  if 16 ≤ bytes.length then
    stripes (round a bytes) (round b (bytes.drop 4)) (round c (bytes.drop 8))
      (round d (bytes.drop 12)) (bytes.drop 16)
  else (rotateLeft a 1 + rotateLeft b 7 + rotateLeft c 12 + rotateLeft d 18, bytes)
termination_by bytes.length
decreasing_by simp only [List.length_drop]; omega

private def tail (acc : UInt32) : List UInt8 → UInt32
  | a :: b :: c :: d :: rest => tail (rotateLeft (acc + lane [a, b, c, d] * prime3) 17 * prime4) rest
  | a :: rest => tail (rotateLeft (acc + UInt32.ofNat a.toNat * prime5) 11 * prime1) rest
  | [] => acc

private def avalanche (acc : UInt32) : UInt32 :=
  let acc := (acc ^^^ acc >>> 15) * prime2
  let acc := (acc ^^^ acc >>> 13) * prime3
  acc ^^^ acc >>> 16

private def digest (bytes : List UInt8) : UInt32 :=
  let (acc, rest) :=
    if 16 ≤ bytes.length then stripes (prime1 + prime2) prime2 0 (0 - prime1) bytes
    else (prime5, bytes)
  avalanche (tail (acc + UInt32.ofNat bytes.length) rest)

/-- XXH32 as published, kept as the bytes written so far. -/
def reference : XxHash32 where
  Hasher := List UInt8
  withSeed := []
  write := (· ++ ·)
  finish bytes := (digest bytes).toNat
  write_nil := List.append_nil
  write_append := List.append_assoc
  finish_lt bytes := (digest bytes).toNat_lt

example : reference.xxhash32 [0x61, 0x62, 0x63] = 0x32d153ff := by decide +kernel

end XxHash32

end Fbz.Lz4
