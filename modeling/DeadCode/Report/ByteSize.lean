/- Byte counts for readers: whole bytes, or one decimal of a binary unit. -/
namespace DeadCode.Report.ByteSize

/-- The quotient rounded to the nearest whole number, a half going to the even neighbour. -/
def roundDiv (num den : Nat) : Nat :=
  let q := num / den
  let r := num % den
  if 2 * r < den then q
  else if den < 2 * r then q + 1
  else if q % 2 = 0 then q else q + 1

def toPrecision (bits n : Nat) : Nat :=
  if n < Nat.pow 2 bits then n
  else
    let unit := Nat.pow 2 (Nat.log2 n + 1 - bits)
    roundDiv n unit * unit

/-- Sizes from a kibibyte on are held in 53 binary digits and written in tenths of the unit. -/
def tenths (bytes unit : Nat) : Nat := roundDiv (10 * toPrecision 53 bytes) unit

def kibi : Nat := 1024

def mebi : Nat := 1024 * 1024

def inUnit (bytes unit : Nat) (name : String) : String :=
  let t := tenths bytes unit
  toString (t / 10) ++ "." ++ toString (t % 10) ++ " " ++ name

def render (bytes : Nat) : String :=
  if bytes < kibi then toString bytes ++ " B"
  else if bytes < mebi then inUnit bytes kibi "KiB"
  else inUnit bytes mebi "MiB"

end DeadCode.Report.ByteSize
