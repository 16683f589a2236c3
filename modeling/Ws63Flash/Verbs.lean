import Ws63Flash.Args
import Ws63Flash.Cmd
import Ws63Flash.Sign
import Ws63Flash.Ymodem
/-!
# Verbs — `ws63flash.c`

The four verbs, `ws63_poll_reset` and `main`.  The verbs repeat two passages word for word, the handshake and the
switch of the line speed; these stand here once (`handshakeLoop`, `switchBaud`).  What is printed is left out, and so
are the delays.
-/
namespace Ws63Flash

open Octets

def RESET_TIMEOUT : Int := 10

/-- `arguments.late_baud` is off and the line is to leave 115200 baud. -/
def Args.earlyBaud (a : Args) : Prop := a.lateBaud = false ∧ a.baud ≠ 115200

instance (a : Args) : Decidable a.earlyBaud := inferInstanceAs (Decidable (_ ∧ _))

/-- `arguments.late_baud` is on and the line is to leave 115200 baud. -/
def Args.laterBaud (a : Args) : Prop := a.lateBaud = true ∧ a.baud ≠ 115200

instance (a : Args) : Decidable a.laterBaud := inferInstanceAs (Decidable (_ ∧ _))

def handshakeCmd (a : Args) : Cmddef :=
  if a.earlyBaud then (WS63E_FLASHINFO .handshake).setDat 0 a.baud (by decide) else WS63E_FLASHINFO .handshake

theorem handshakeCmd_len (a : Args) : (handshakeCmd a).len = 8 := by
  unfold handshakeCmd
  split <;> rfl

/-- The acknowledgement of a handshake. -/
def ack : List UInt8 := [0xEF, 0xBE, 0xAD, 0xDE, 0x0C, 0x00, 0xE1, 0x1E, 0x5A, 0x00]

/-- One turn of the loop below. -/
def handshakeTurn (fuel : Nat) (a : Args) (t0 : Int) : Tty (Iter Unit Int) := do
  let ret ← ws63SendCmddef fuel (handshakeCmd a)
  if ret ≠ 0 then return .done EXIT_FAILURE
  else
    let t ← time
    if t - t0 > RESET_TIMEOUT then return .done 1
    else
      match ← read 32 with
      | .data []  => return .next ()
      | .fail _   => return .done EXIT_FAILURE
      | .data buf =>
        if ack <:+: buf then
          if a.earlyBaud then uartOpen a.baud.toNat
          return .done 0
        else return .next ()

/-- The loop in which each verb waits for the device's reset: 0 when it is left by `break`, else what the verb returns. -/
def handshakeLoop (fuel : Nat) (a : Args) : Tty Int := do
  let t0 ← time
  Proc.loop (fun (_ : Unit) => handshakeTurn fuel a t0) fuel ()

def baudCmd (a : Args) : Cmddef := (WS63E_FLASHINFO .setbaudr).setDat 0 a.baud (by decide)

/-- The switch of the line speed after the loaderboot: 0, or what the verb returns. -/
def switchBaud (fuel : Nat) (a : Args) : Tty Int :=
  if a.laterBaud then do
    let ret ← ws63SendCmddef fuel (baudCmd a)
    if ret < 0 then return EXIT_FAILURE
    else
      let _ ← uartReadUntilMagic fuel
      uartOpen a.baud.toNat
      let _ ← uartReadUntilMagic fuel
      return 0
  else return 0

/-- `ceil(len/8192.0)*0x2000`, cut to 32 bits.  The quotient is exact for a length below 2^53. -/
def erasSize (len : Nat) : UInt32 := UInt32.ofNat ((len + 8191) / 8192 * 0x2000)

def downloadCmd (addr len : UInt32) (eras : UInt32) : Cmddef :=
  (((WS63E_FLASHINFO .downloadi).setDat 0 addr (by decide)).setDat 4 len (by decide)).setDat 8 eras (by decide)

def resetWord : List UInt8 := [0x52, 0x65, 0x73, 0x65, 0x74]
def resetWordLower : List UInt8 := [0x72, 0x65, 0x73, 0x65, 0x74]

/-- The state is `t1` and the buffer, which keeps what earlier reads stored beyond the last one's bytes. -/
def ws63PollReset (fuel : Nat) : Tty Int := do
  let t0 ← time
  Proc.loop (fun (s : Int × List UInt8) => do
    if s.1 - t0 < RESET_TIMEOUT then
      let t1 ← time
      let ret ← ws63SendCmddef fuel (WS63E_FLASHINFO .rst)
      if ret < 0 then return .done ret
      else
        match ← read 32 with
        | .fail e   => return .done e.neg
        | .data bs =>
          let buf := setRange s.2 0 bs
          if bs ≠ [] ∧ (resetWord <:+: buf ∨ resetWordLower <:+: buf) then return .done 0
          else return .next (t1, buf)
    else return .done ETIMEDOUT.neg) fuel (t0, List.replicate 32 0)

/-! ## `verb_flash` -/

def binInArgs (s : CStr) (a : Args) : Bool := a.args.drop 2 = [] ∨ s ∈ a.args.drop 2

/-- The loop that looks for the loaderboot: a later record of type 0 replaces an earlier one. -/
def findLoaderboot (bins : List FwpkgBinInfo) : Option FwpkgBinInfo :=
  bins.foldl (fun loaderboot b => if b.type2 = 0 then some b else loaderboot) none

/-- The loop over the records after the loaderboot: 0, or what the verb returns. -/
def flashFiles (fuel : Nat) (a : Args) (fw : List UInt8) : List FwpkgBinInfo → Tty Int
  | []          => return 0
  | bin :: bins =>
    if bin.type2 ≠ 1 then flashFiles fuel a fw bins
    else if ¬ binInArgs bin.str a then flashFiles fuel a fw bins
    else do
      let ret ← ws63SendCmddef fuel (downloadCmd bin.burnAddr bin.length (erasSize bin.length.toNat))
      if ret < 0 then return EXIT_FAILURE
      else
        let _ ← uartReadUntilMagic fuel
        let ret ← ymodemXfer fuel (fw.drop bin.offset.toNat) bin.str bin.length.toNat
        if ret < 0 then return EXIT_FAILURE
        else flashFiles fuel a fw bins

def verbFlash (fuel : Nat) (h : Host) (a : Args) : Tty Int :=
  match a.args[1]? with
  | none      => Proc.halt .undefined
  | some path =>
    match h.fopen path with
    | .error _ => return EXIT_FAILURE
    | .ok fw   => do
      match ← Proc.lift (fwpkgReadHeader fw) with
      | none        => return EXIT_FAILURE
      | some header =>
        match fwpkgReadBinInfos fw header with
        | none      => return EXIT_FAILURE
        | some bins =>
          match findLoaderboot bins with
          | none            => return EXIT_FAILURE
          | some loaderboot =>
            -- the plan is printed, each name up to a NUL, in its field or after it
            if ¬ NamesEnd bins then Proc.halt .undefined
            else if ∃ arg ∈ a.args.drop 2, arg ∉ tableNames bins then return EXIT_FAILURE
            else
              let ret ← handshakeLoop fuel a
              if ret ≠ 0 then return ret
              else
                let ret ← ymodemXfer fuel (fw.drop loaderboot.offset.toNat) loaderboot.str loaderboot.length.toNat
                if ret < 0 then return EXIT_FAILURE
                else
                  let _ ← uartReadUntilMagic fuel
                  let ret ← switchBaud fuel a
                  if ret ≠ 0 then return ret
                  else
                    let ret ← flashFiles fuel a fw bins
                    if ret ≠ 0 then return ret
                    else
                      let _ ← ws63PollReset fuel
                      return 0

/-! ## `verb_write` -/

/-- The parsing loop, from the argument 1 on; only that one may go without an address. -/
def parseWobjs (h : Host) : List CStr → Except Int (List Wobj)
  | []          => .ok []
  | arg :: args => do
    let first ← parseWobj h true arg
    let rest ← args.mapM (parseWobj h false)
    return first :: rest

/-- The loop over the files after the loaderboot: 0, or what the verb returns. -/
def writeFiles (fuel : Nat) (h : Host) : List Wobj → Tty Int
  | []            => return 0
  | wobj :: wobjs => do
    let ret ← ws63SendCmddef fuel
      (downloadCmd (UInt32.ofNat wobj.addr) (UInt32.ofNat wobj.length) (erasSize wobj.length))
    if ret < 0 then return EXIT_FAILURE
    else
      let _ ← uartReadUntilMagic fuel
      match h.fopen wobj.name with
      | .error e => return e.code
      | .ok fw   =>
        let ret ← ymodemXfer fuel fw (basename wobj.name) wobj.length
        if ret < 0 then return EXIT_FAILURE
        else writeFiles fuel h wobjs

def verbWrite (fuel : Nat) (h : Host) (a : Args) : Tty Int :=
  match parseWobjs h (a.args.drop 1) with
  | .error r  => return r
  | .ok wobjs =>
    -- printing the plan calls `basename`, which cuts the names
    match wobjs.map (fun w => { w with name := basenameCut w.name }) with
    | []            => Proc.halt .undefined
    | boot :: wobjs => do
      let ret ← handshakeLoop fuel a
      if ret ≠ 0 then return ret
      else
        match h.fopen boot.name with
        | .error e => return e.code
        | .ok fw   =>
          let ret ← ymodemXfer fuel fw (basename boot.name) boot.length
          if ret < 0 then return EXIT_FAILURE
          else
            let _ ← uartReadUntilMagic fuel
            let ret ← switchBaud fuel a
            if ret ≠ 0 then return ret
            else
              let ret ← writeFiles fuel h wobjs
              if ret ≠ 0 then return ret
              else
                let _ ← ws63PollReset fuel
                return 0

/-! ## `verb_erase` and `verb_write_prog` -/

/-- `"root_loaderboot_sign.bin"`. -/
def loaderbootName : CStr where
  bytes := [0x72, 0x6f, 0x6f, 0x74, 0x5f, 0x6c, 0x6f, 0x61, 0x64, 0x65, 0x72, 0x62, 0x6f, 0x6f, 0x74, 0x5f, 0x73, 0x69,
    0x67, 0x6e, 0x2e, 0x62, 0x69, 0x6e]
  noNul := by decide

/-- `"ws63flash_prog"`. -/
def progName : CStr where
  bytes := [0x77, 0x73, 0x36, 0x33, 0x66, 0x6c, 0x61, 0x73, 0x68, 0x5f, 0x70, 0x72, 0x6f, 0x67]
  noNul := by decide

def verbErase (fuel : Nat) (h : Host) (a : Args) : Tty Int :=
  if ¬ h.tmpfile then return 1
  else do
    let ret ← handshakeLoop fuel a
    if ret ≠ 0 then return ret
    else
      let ret ← ymodemXfer fuel h.loaderboot loaderbootName h.loaderboot.length
      if ret < 0 then return EXIT_FAILURE
      else
        let _ ← uartReadUntilMagic fuel
        let ret ← ws63SendCmddef fuel (WS63E_FLASHINFO .downloadi)
        if ret < 0 then return EXIT_FAILURE
        else
          let _ ← uartReadUntilMagic fuel
          let _ ← ws63PollReset fuel
          return 0

def verbWriteProg (fuel : Nat) (h : Host) (a : Args) : Tty Int :=
  match a.args[1]? with
  | none      => Proc.halt .undefined
  | some path =>
    match h.fopen path with
    | .error _ => return 1
    | .ok bin  =>
      if ¬ h.tmpfile then return 1
      else do
        let (ctx, outf) := signFile h.sha256 bin
        let ret ← handshakeLoop fuel a
        if ret ≠ 0 then return ret
        else
          let ret ← ymodemXfer fuel h.loaderboot loaderbootName h.loaderboot.length
          if ret < 0 then return EXIT_FAILURE
          else
            let _ ← uartReadUntilMagic fuel
            let ret ← switchBaud fuel a
            if ret ≠ 0 then return ret
            else
              let len := ctx.len + signBufLen
              let ret ← ws63SendCmddef fuel (downloadCmd 0x230000 (UInt32.ofNat len) (erasSize len))
              if ret < 0 then return EXIT_FAILURE
              else
                let _ ← uartReadUntilMagic fuel
                let ret ← ymodemXfer fuel outf progName len
                if ret < 0 then return EXIT_FAILURE
                else
                  let _ ← ws63PollReset fuel
                  return 0

/-! ## `main` -/

def verbRun (fuel : Nat) (h : Host) (a : Args) : Verb → Tty Int
  | .flash     => verbFlash fuel h a
  | .write     => verbWrite fuel h a
  | .erase     => verbErase fuel h a
  | .writeProg => verbWriteProg fuel h a

/-- `main`, the options having set a verb and the speed. -/
def main (fuel : Nat) (h : Host) (verb : Verb) (a : Args) : Tty Int :=
  if ¬ parseOpt verb a.args.length then return EX_USAGE
  else if ¬ h.tty then return EXIT_FAILURE
  else do
    uartOpen 115200
    let ret ← verbRun fuel h a verb
    uartOpen 115200
    return ret

end Ws63Flash
