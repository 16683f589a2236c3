import Ws63Flash.YmodemTrace
import Ws63Flash.CmdFrames
import Ws63Flash.Fwpkg
import Ws63Flash.Sign
import Ws63Flash.Handshake
import Ws63Flash.InjectData
import Ws63Flash.FlashTrace
import Ws63Flash.FlashDevice
import Ws63Flash.FailStop
import Ws63Flash.FlashWrite
import Ws63Flash.StopWait
import Ws63Flash.SignMain
import Ws63Flash.ProgWrite
import Ws63Flash.CrcDetect
import Ws63Flash.FwpkgRead
import Ws63Flash.InjectTwice
import Ws63Flash.FwpkgMain
import Ws63Flash.InjectNames
import Ws63Flash.FlashSent
import Ws63Flash.Resync
import Ws63Flash.Replies
import Ws63Flash.XferEnds
import Ws63Flash.InjectBounds
import Ws63Flash.PollReset
import Ws63Flash.BinAddr
import Ws63Flash.DownloadLen
import Ws63Flash.FileInfo
import Ws63Flash.NameReads
import Ws63Flash.CopyWhole
import Ws63Flash.ParseOpt
import Ws63Flash.SignArgs
import Ws63Flash.MainDevice
import Ws63Flash.InjectFlash
import Ws63Flash.NoisyLine
import Ws63Flash.LineSpeed
import Ws63Flash.XferServed
import Ws63Flash.Feasible
import Ws63Flash.Resends
import Ws63Flash.FwpkgArgs
