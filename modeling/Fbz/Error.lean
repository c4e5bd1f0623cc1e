import Mathlib.Algebra.Order.Ring.Int

/-!
# Errors

The error type every codec of the crate shares. Text is kept exactly as the code builds it.
-/

namespace Fbz

/-- Reasons a bzip2 stream is refused. -/
inductive DecodeError
  | invalidMagic | invalidLevel | truncated | crcMismatch | randomizedBlock | invalidHuffman
  | invalidBlock | blockOverflow
  deriving DecidableEq, Repr

/-- Kinds of `io::Error` this crate makes itself; any other kind goes by its name. -/
inductive ErrorKind
  | invalidInput | invalidData | brokenPipe | alreadyExists | notFound | notADirectory | other
  | named (name : String)
  deriving DecidableEq, Repr

structure IoError where
  kind : ErrorKind
  message : String
  deriving DecidableEq, Repr

inductive Error
  | invalidBitCount (count : Nat)
  | invalidBitOffset (bitOffset lenBits : Nat)
  | unexpectedEof (bitOffset requested remaining : Nat)
  | invalidStreamHeader
  | invalidGzip (message : String)
  | invalidLz4 (message : String)
  | invalidZip (message : String)
  | unsupportedFormat (message : String)
  | decode (bitOffset : Nat) (source : DecodeError)
  | invalidIndex (message : String)
  | invalidConfiguration (message : String)
  | io (error : IoError)
  deriving DecidableEq, Repr

def DecodeError.text : DecodeError → String
  | .invalidMagic => "invalid bzip2 magic"
  | .invalidLevel => "invalid bzip2 block size"
  | .truncated => "unexpected end of bzip2 stream"
  | .crcMismatch => "bzip2 CRC mismatch"
  | .randomizedBlock => "legacy randomized bzip2 block not supported"
  | .invalidHuffman => "invalid bzip2 Huffman table"
  | .invalidBlock => "invalid bzip2 block structure"
  | .blockOverflow => "bzip2 block exceeds its declared size"

/-- What the `Display` implementation writes. -/
def Error.text : Error → String
  | .invalidBitCount count =>
    "cannot read " ++ toString count ++ " bits at once; maximum is 64"
  | .invalidBitOffset bitOffset lenBits =>
    "bit offset " ++ toString bitOffset ++ " is beyond the " ++ toString lenBits ++ "-bit input"
  | .unexpectedEof bitOffset requested remaining =>
    "unexpected end of input at bit " ++ toString bitOffset ++ ": requested " ++
      toString requested ++ " bits, " ++ toString remaining ++ " remain"
  | .invalidStreamHeader => "input does not start with a bzip2 BZh1-BZh9 header"
  | .invalidGzip message => "invalid gzip stream: " ++ message
  | .invalidLz4 message => "invalid LZ4 frame: " ++ message
  | .invalidZip message => "invalid ZIP archive: " ++ message
  | .unsupportedFormat message => message
  | .decode bitOffset source =>
    "bzip2 decode error at bit " ++ toString bitOffset ++ ": " ++ source.text
  | .invalidIndex message => "invalid fbz index: " ++ message
  | .invalidConfiguration message => "invalid configuration: " ++ message
  | .io error => error.message

/-- `Result<T>` of the crate. -/
abbrev Result (α : Type) := Except Error α

@[simp] theorem result_bind_ok {ε α β : Type} (a : α) (f : α → Except ε β) :
    (Except.ok a >>= f) = f a := rfl

@[simp] theorem result_bind_error {ε α β : Type} (e : ε) (f : α → Except ε β) :
    ((Except.error e : Except ε α) >>= f) = Except.error e := rfl

theorem result_bind_eq_ok {ε α β : Type} {x : Except ε α} {f : α → Except ε β} {b : β} :
    (x >>= f) = .ok b ↔ ∃ a, x = .ok a ∧ f a = .ok b := by
  cases x <;> simp

theorem toOption_eq_some {α : Type} {x : Result α} {a : α} : x.toOption = some a ↔ x = .ok a := by
  cases x <;> simp [Except.toOption]

/-- `ok_or`. -/
def okOr {α : Type} (error : Error) : Option α → Result α
  | some a => .ok a
  | none => .error error

/-- A check that returns early with an error. -/
def ensure (p : Prop) [Decidable p] (error : Error) : Result Unit :=
  if p then .ok () else .error error

@[simp] theorem okOr_some {α : Type} (error : Error) (a : α) : okOr error (some a) = .ok a := rfl

@[simp] theorem okOr_none {α : Type} (error : Error) :
    okOr error (none : Option α) = .error error := rfl

@[simp] theorem okOr_eq_ok {α : Type} {error : Error} {x : Option α} {a : α} :
    okOr error x = .ok a ↔ x = some a := by
  cases x <;> simp [okOr]

@[simp] theorem ensure_eq_ok {p : Prop} [Decidable p] {error : Error} {u : Unit} :
    ensure p error = .ok u ↔ p := by
  unfold ensure
  split <;> simp [*]

theorem ensure_of {p : Prop} [Decidable p] {error : Error} (h : p) : ensure p error = .ok () := if_pos h

theorem ensure_of_not {p : Prop} [Decidable p] {error : Error} (h : ¬ p) :
    ensure p error = .error error := if_neg h

end Fbz
