import Armada3720.Env.Sf
import Armada3720.Env.Mmc
import Armada3720.XlatV1.Meaning
import Armada3720.SpiFlash.Linear
import Armada3720.Net.TftpPut
import Armada3720.Net.Walk
import Armada3720.Blk.Coherence
import Armada3720.Part.GptCrash
import Armada3720.Fwu.Assertions
import Armada3720.Psci.CpuOn
import Armada3720.Ehf.Worlds
import Armada3720.Sdei.RegCount
import Armada3720.Sdei.Routing
import Armada3720.Efi.IdentityMap
import Armada3720.Efi.PageAllocator
import Armada3720.Lmb.Usable
import Armada3720.MemBuff.Fifo
import Armada3720.MemBuff.Extend
import Armada3720.XlatV2.RegionArray
import Armada3720.Env.FlagsRun
import Armada3720.UBootMmu.Budget
import Armada3720.UBootMmu.RegionAttrExact
import Armada3720.Env.ExportSize
import Armada3720.Env.Match
import Armada3720.Loader.AuthImage
import Armada3720.Psci.Stat
import Armada3720.Psci.Tree
import Armada3720.Env.Selected
import Armada3720.Io.Fip
import Armada3720.Sparse.Confined
import Armada3720.Wtmi.Rows
import Armada3720.Wtmi.DllTuning
import Armada3720.MemSize
import Armada3720.AddrMap
