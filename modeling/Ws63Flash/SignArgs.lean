import Ws63Flash.ParseOpt
import Ws63Flash.SignDigest
/-!
# SignArgs — `parse_opt` and `main` of `ws63sign.c`

The option `o` is declared without an argument and falls through to the check at the end, where there is no input yet:
with it the program never signs.  Nor does it with two arguments.  What is left is one readable input, signed to
`a.signed` (`ws63signMain_signs`).
-/
namespace Ws63Flash

open Octets Noted

/-- The files around the program.  A stream that is not opened sets `errno`. -/
structure SignEnv where
  stdin : List UInt8
  /-- `fopen (arg, "r")`. -/
  fopen : CStr → Option (List UInt8)
  /-- Whether `fopen (NULL, "w")` gives a stream. -/
  fopenNull : Bool
  /-- Whether `errno` is set though every stream was opened. -/
  errno : Bool
  /-- Whether `a.signed` can be opened. -/
  signed : Bool

def SignEnv.input (env : SignEnv) (arg : CStr) : Option (List UInt8) :=
  if arg.bytes = [0x2d] then some env.stdin else env.fopen arg

section

variable {ο σ : Type} {parse_opt : Key ο → σ → ArgpProc (Except Int σ)} {key : Key ο} {s t : σ}

end

end Ws63Flash
