import Fbz.Error

/-!
# Decoding options

The options all decoders share. How many threads the machine offers is a parameter of the run.
-/

namespace Fbz

def maxEncodedBlock : Nat := 900000

def maxDecodedBlock : Nat := maxEncodedBlock / 5 * 259 + 4

structure DecodeProgress where
  compressedBytes : Nat
  decodedBytes : Nat
  deriving DecidableEq, Repr

/-- What the callback is given of a count. The decoders count exactly here; the code adds what the
units before have come to and the count of the unit at hand as `u64`, unchecked, and wraps. -/
def DecodeProgress.wrapped (count : DecodeProgress) : DecodeProgress :=
  { count with decodedBytes := count.decodedBytes % 2 ^ 64 }

structure DecodeOptions where
  threads : Nat
  memoryLimit : Nat

namespace DecodeOptions

/-- Zero threads selects what `available_parallelism` reports. -/
def resolvedThreads (options : DecodeOptions) (parallelism : Nat) : Nat :=
  if options.threads ≠ 0 then options.threads else parallelism

def validate (options : DecodeOptions) : Result DecodeOptions :=
  if options.memoryLimit < maxDecodedBlock then
    .error (.invalidConfiguration s!"memory limit must be at least {maxDecodedBlock} bytes")
  else .ok options

end DecodeOptions

end Fbz
