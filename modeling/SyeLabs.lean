import SyeLabs.Library.Run
import SyeLabs.Library.Recency
import SyeLabs.Library.WorkingSet
import SyeLabs.Library.Duplex
import SyeLabs.Memreplace.PageTable
import SyeLabs.Memreplace.Wsc
import SyeLabs.Memreplace.WscScan
import SyeLabs.Memreplace.Commands
import SyeLabs.Memreplace.ReuseDistance
import SyeLabs.Memreplace.Settling
import SyeLabs.Memsim.WriteProtection
import SyeLabs.Memsim.PrintPage
import SyeLabs.Shell.Pipeline
import SyeLabs.Shell.Descriptors
import SyeLabs.Shell.Background
import SyeLabs.Letters.Threads
import SyeLabs.Letters.Histogram
import SyeLabs.Letters.Lifetime
import SyeLabs.Battleship.Secrecy
import SyeLabs.Battleship.Terminal
import SyeLabs.Battleship.Startup
import SyeLabs.So3.ArgsRelocation
import SyeLabs.So3.ArgsBounds
import SyeLabs.So3.LoadBounds
import SyeLabs.So3.Sbrk
import SyeLabs.So3.ExecFailure
import SyeLabs.So3.Interrupts
import SyeLabs.So3.Termination
import SyeLabs.So3.ProcessTree
import SyeLabs.So3.ReapedTwice
import SyeLabs.So3.PageCounts
import SyeLabs.So3.Accounting
import SyeLabs.So3.Listing
import SyeLabs.Shell.OnSo3
import SyeLabs.Battleship.Agreement
import SyeLabs.Battleship.Outcome
import SyeLabs.Battleship.Forfeit
import SyeLabs.Battleship.PromptCell
import SyeLabs.Battleship.Placement
import SyeLabs.Battleship.SocketSend
import SyeLabs.Ls.Resources
import SyeLabs.Ls.Directory
import SyeLabs.Ls.Plain
import SyeLabs.Shell.Leftovers
import SyeLabs.Shell.Versions
import SyeLabs.Memreplace.Competitive
import SyeLabs.So3.ExecDelivery
import SyeLabs.So3.ExitStatus
