import Shizuku.AbsolutePaths
import Shizuku.Absorption
import Shizuku.AddressSpaces
import Shizuku.Arguments
import Shizuku.BadFrees
import Shizuku.Blocking
import Shizuku.ByteMemory
import Shizuku.Compositor
import Shizuku.ContextSwitches
import Shizuku.Descriptors
import Shizuku.Desktop
import Shizuku.DesktopBoot
import Shizuku.DesktopRuns
import Shizuku.DirectoryListing
import Shizuku.DirtyOrder
import Shizuku.DirtyRegion
import Shizuku.Dragging
import Shizuku.Elf
import Shizuku.ElfLoading
import Shizuku.ElfReads
import Shizuku.FileChunks
import Shizuku.FileCopy
import Shizuku.FrameBuffer
import Shizuku.HeapFailures
import Shizuku.HighImages
import Shizuku.HighPages
import Shizuku.Holdings
import Shizuku.Initrd
import Shizuku.InitrdBounds
import Shizuku.InputRings
import Shizuku.Interrupts
import Shizuku.Isolation
import Shizuku.KernelHalf
import Shizuku.KernelIsolation
import Shizuku.KernelTime
import Shizuku.Keyboard
import Shizuku.Machine
import Shizuku.Malloc
import Shizuku.MapCalls
import Shizuku.MemoryMap
import Shizuku.Mouse
import Shizuku.NameTree
import Shizuku.OpenFailures
import Shizuku.PackedBits
import Shizuku.PageContents
import Shizuku.PageOwnership
import Shizuku.PagePlacing
import Shizuku.PageRuns
import Shizuku.PageTables
import Shizuku.PageWalk
import Shizuku.ParentForest
import Shizuku.PathMeaning
import Shizuku.PixelSurfaces
import Shizuku.Pmm
import Shizuku.PointerForest
import Shizuku.Process
import Shizuku.ProcessMemory
import Shizuku.RingQueue
import Shizuku.RoundRobin
import Shizuku.RowMajor
import Shizuku.Scanning
import Shizuku.Sched
import Shizuku.ScreenContents
import Shizuku.ShellTokens
import Shizuku.SpaceLifetime
import Shizuku.SpaceRelease
import Shizuku.Spawning
import Shizuku.StackWords
import Shizuku.Surface
import Shizuku.Syscalls
import Shizuku.TableLevels
import Shizuku.TerminalLayout
import Shizuku.TerminalPixels
import Shizuku.ThreadContexts
import Shizuku.Tmpfs
import Shizuku.TmpfsAnswers
import Shizuku.TmpfsContents
import Shizuku.TmpfsNamespace
import Shizuku.TmpfsPaths
import Shizuku.TmpfsRefinement
import Shizuku.TmpfsSteps
import Shizuku.TmpfsTree
import Shizuku.Traps
import Shizuku.UserHeap
import Shizuku.UserStack
import Shizuku.Vmm
import Shizuku.Vterm
import Shizuku.Waiting
import Shizuku.WindowDamage
import Shizuku.WindowUpkeep
import Shizuku.WordMemory
import Shizuku.WorkingDirectory
