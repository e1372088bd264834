import IcsPa.Framework.Bytes
import IcsPa.Framework.Fault
import IcsPa.Framework.Regex
import IcsPa.Framework.Chain
import IcsPa.Framework.Radix
import IcsPa.Framework.Words
import IcsPa.Framework.Asm
import IcsPa.Framework.Ata
import IcsPa.Framework.BitCount
import IcsPa.Framework.CArith
import IcsPa.Framework.ShiftSub
import IcsPa.Framework.Ring
import IcsPa.Framework.CArray
import IcsPa.Framework.Hex
import IcsPa.Framework.Packet
import IcsPa.Am.AddrSpace
import IcsPa.Am.Keys
import IcsPa.Am.Klib
import IcsPa.Am.Klib.Int64
import IcsPa.Am.Klib.Int64.Signed
import IcsPa.Am.Klib.Int64.Zeros
import IcsPa.Am.Gpu
import IcsPa.Am.Gpu.Blit
import IcsPa.Am.Gpu.Render
import IcsPa.Am.Gpu.RenderSafe
import IcsPa.Am.Native.Vme
import IcsPa.Am.Native.Host
import IcsPa.Am.Native.Cte
import IcsPa.Am.Native.Cte.Resume
import IcsPa.Am.Native.Input
import IcsPa.Am.Native.Audio
import IcsPa.Am.X86.Paging
import IcsPa.Am.X86.Vme
import IcsPa.Am.X86.Tables
import IcsPa.Am.X86.Kernel
import IcsPa.Am.X86.Refinement
import IcsPa.Am.X86.Teardown
import IcsPa.Am.X86.Boot
import IcsPa.Am.X86.Boot.Load
import IcsPa.Am.X86.Boot.Images
import IcsPa.Am.X86.Cte
import IcsPa.Am.X86.Trap32
import IcsPa.Am.X86.Resume32
import IcsPa.Am.X86.Trap64
import IcsPa.Am.X86.Resume64
import IcsPa.Am.X86.Resume
import IcsPa.Nemu.Common
import IcsPa.Nemu.Expr.Lexer
import IcsPa.Nemu.Expr.Grammar
import IcsPa.Nemu.Expr.Eval
import IcsPa.Nemu.Expr.Lexing
import IcsPa.Nemu.Expr.Correct
import IcsPa.Nemu.Expr.Malformed
import IcsPa.Nemu.Expr.Tokens
import IcsPa.Nemu.Expr.Literal
import IcsPa.Nemu.Expr.Buffers
import IcsPa.Nemu.Paddr
import IcsPa.Nemu.Paddr.History
import IcsPa.Nemu.Paddr.Host
import IcsPa.Nemu.IoSpace
import IcsPa.Nemu.Keyboard
import IcsPa.Nemu.Keyboard.Order
import IcsPa.Nemu.Watchpoint
import IcsPa.Nemu.Difftest
import IcsPa.Nemu.GenExpr
import IcsPa.Nemu.QemuDiff
import IcsPa.Nemu.QemuDiff.Regs
import IcsPa.Nemu.QemuDiff.Protocol
import IcsPa.Nemu.QemuDiff.Line
import IcsPa.Nemu.QemuDiff.OverLine
import IcsPa.Nemu.Monitor
import IcsPa.Nemu.Monitor.CpuExec
import IcsPa.Nemu.Monitor.Timer
import IcsPa.Nemu.Monitor.Terminal
import IcsPa.Nemu.Monitor.Ui
import IcsPa.Nemu.Monitor.CmdErrors
import IcsPa.Nemu.Monitor.ExitStatus
import IcsPa.Framework.I386
import IcsPa.Framework.ZeroExt
import IcsPa.Nemu.X86.Rtl
import IcsPa.Nemu.X86.RtlSpec
import IcsPa.Nemu.X86.Decode
import IcsPa.Nemu.X86.Exec
import IcsPa.Nemu.X86.ModRM
import IcsPa.Nemu.X86.Mov
import IcsPa.Nemu.X86.Invalid
import IcsPa.Framework.Logged
import IcsPa.Nemu.X86.Debug
import IcsPa.Nemu.X86.LogBuf
import IcsPa.Nemu.X86.RegFile
import IcsPa.Framework.Riscv
import IcsPa.Nemu.Riscv.Exec
import IcsPa.Nemu.Riscv.Step
import IcsPa.Nemu.X86.Muldiv
import IcsPa.Nemu.X86.SignExt
import IcsPa.Framework.Objects
import IcsPa.Framework.Lockstep
import IcsPa.Nemu.Device
import IcsPa.Nemu.Device.Parts
import IcsPa.Nemu.Device.Board
import IcsPa.Nemu.Device.Refine
import IcsPa.Nemu.Device.Runs
import IcsPa.Nemu.Device.Ports
import IcsPa.Nemu.Device.Reach
import IcsPa.Nemu.Device.Traffic
import IcsPa.Am.X86.Disk
import IcsPa.Am.X86.Rtc
import IcsPa.Am.X86.Lapic
import IcsPa.Am.X86.Mpe
import IcsPa.Am.X86.Mpe.Boot
import IcsPa.Am.X86.Mpe.Halt
import IcsPa.Am.X86.Mpe.Progress
