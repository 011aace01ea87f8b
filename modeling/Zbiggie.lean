import Zbiggie.Kernel.Paging
import Zbiggie.Kernel.Syscall
import Zbiggie.Kernel.Terminal
import Zbiggie.Proof.UserPtr
import Zbiggie.Proof.ProcView
import Zbiggie.Proof.BaseShell
import Zbiggie.Proof.Isolation
import Zbiggie.Proof.Background
import Zbiggie.Proof.Screens
import Zbiggie.Proof.FdTable
import Zbiggie.Proof.Lines
import Zbiggie.Proof.Delivery
import Zbiggie.Proof.Stacks
import Zbiggie.Proof.Ownership
import Zbiggie.Proof.ExitStatus
import Zbiggie.Proof.FileData
import Zbiggie.Proof.FileReads
import Zbiggie.Proof.Directory
import Zbiggie.Proof.LoadExec
import Zbiggie.Proof.Modifiers
import Zbiggie.Proof.Arguments
import Zbiggie.Proof.LoadSizes
import Zbiggie.Proof.LineIndex
import Zbiggie.Proof.ReadLine
import Zbiggie.Proof.EditedScreen
import Zbiggie.Proof.Printf
import Zbiggie.Proof.Blocks
import Zbiggie.Proof.History
import Zbiggie.Proof.TextOutput
import Zbiggie.Proof.Typing
import Zbiggie.Proof.Protected
import Zbiggie.Proof.ScreenBounds
import Zbiggie.Proof.Entry
import Zbiggie.Proof.Frames
import Zbiggie.Proof.Grep
import Zbiggie.Proof.Programs
import Zbiggie.Proof.Rtc
import Zbiggie.Proof.Emulate
import Zbiggie.Proof.Idt
import Zbiggie.Proof.Pic
import Zbiggie.Proof.Console
import Zbiggie.Proof.Pingpong
