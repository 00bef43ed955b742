import FlashFloppyTestbed.Foundation.Bits
import FlashFloppyTestbed.Memory
import FlashFloppyTestbed.Foundation.Transducer
import FlashFloppyTestbed.Floppy.Dma
import FlashFloppyTestbed.Foundation.Run
import FlashFloppyTestbed.Floppy.Wdata
import FlashFloppyTestbed.Floppy.WriteRing
import FlashFloppyTestbed.Floppy.FloppyWrite
import FlashFloppyTestbed.Floppy.Rdata
import FlashFloppyTestbed.Floppy.Polling
import FlashFloppyTestbed.Foundation.Search
import FlashFloppyTestbed.Foundation.Visits
import FlashFloppyTestbed.Foundation.Blocks
import FlashFloppyTestbed.Foundation.Gaps
import FlashFloppyTestbed.Foundation.Lfsr
import FlashFloppyTestbed.Foundation.Remainder
import FlashFloppyTestbed.Floppy.RoundTrip
import FlashFloppyTestbed.Floppy.Quantiser
import FlashFloppyTestbed.Floppy.Resume
import FlashFloppyTestbed.Console
import FlashFloppyTestbed.ConsoleSync
import FlashFloppyTestbed.Snprintf
import FlashFloppyTestbed.NumberFormat
import FlashFloppyTestbed.FormatRun
import FlashFloppyTestbed.Foundation.Chain
import FlashFloppyTestbed.Timer
import FlashFloppyTestbed.Time
import FlashFloppyTestbed.Mfm
import FlashFloppyTestbed.Crc
import FlashFloppyTestbed.CrcSerial
import FlashFloppyTestbed.Fm
import FlashFloppyTestbed.Coder
import FlashFloppyTestbed.Disk.Coding
import FlashFloppyTestbed.Disk.Revolution
import FlashFloppyTestbed.Disk.Read
import FlashFloppyTestbed.Disk.Ibm
import FlashFloppyTestbed.Disk.Layout
import FlashFloppyTestbed.Disk.Format
import FlashFloppyTestbed.Disk.Scan
import FlashFloppyTestbed.Disk.IbmFm
import FlashFloppyTestbed.Disk.Fill
import FlashFloppyTestbed.Disk.Gap
import FlashFloppyTestbed.Disk.Search
import FlashFloppyTestbed.Disk.Store
import FlashFloppyTestbed.Disk.Accept
import FlashFloppyTestbed.Disk.Residue
import FlashFloppyTestbed.Disk.FmSector
import FlashFloppyTestbed.Disk.FmAccept
import FlashFloppyTestbed.Disk.IdamCheck
import FlashFloppyTestbed.Disk.AmigaDisk
import FlashFloppyTestbed.Disk.AmigaRead
import FlashFloppyTestbed.Disk.AmigaRoundTrip
import FlashFloppyTestbed.Disk.AmigaCoder
import FlashFloppyTestbed.Disk.AmigaDamage
import FlashFloppyTestbed.Disk.AmigaBounds
import FlashFloppyTestbed.Disk.RunLength
import FlashFloppyTestbed.Foundation.Placement
import FlashFloppyTestbed.Disk.Interleave
import FlashFloppyTestbed.Delay
import FlashFloppyTestbed.Memmove
import FlashFloppyTestbed.Foundation.Galois
import FlashFloppyTestbed.Rand
import FlashFloppyTestbed.Floppy.HardSector
import FlashFloppyTestbed.Strtol
import FlashFloppyTestbed.Foundation.Rearrange
import FlashFloppyTestbed.Qsort
import FlashFloppyTestbed.Hfe
import FlashFloppyTestbed.Foundation.Loop
import FlashFloppyTestbed.Floppy.Head
import FlashFloppyTestbed.TimerProgress
import FlashFloppyTestbed.Gpio
import FlashFloppyTestbed.Foundation.TwoWire
import FlashFloppyTestbed.Led.Tm1651
import FlashFloppyTestbed.Led.Display
import FlashFloppyTestbed.Tests.Data
import FlashFloppyTestbed.Tests.RwSector
import FlashFloppyTestbed.Tests.HardSector
import FlashFloppyTestbed.QsortStack
import FlashFloppyTestbed.Disk.FluxRead
import FlashFloppyTestbed.Disk.IbmDamage
import FlashFloppyTestbed.ConsoleBarrier
import FlashFloppyTestbed.Disk.FmTrack
import FlashFloppyTestbed.Disk.FmScan
import FlashFloppyTestbed.Disk.FmStore
import FlashFloppyTestbed.Tests.FmRwSector
import FlashFloppyTestbed.Strings
import FlashFloppyTestbed.Floppy.Drive
import FlashFloppyTestbed.Tests.DirectAccess
import FlashFloppyTestbed.Edsk
import FlashFloppyTestbed.Tests.DskTest
import FlashFloppyTestbed.Tests.AdfTest
import FlashFloppyTestbed.Tests.Rounds
import FlashFloppyTestbed.Pins
import FlashFloppyTestbed.Tests.QuickDisk
