import Iqiq.ByteMemory
import Iqiq.SevenBitGroups
import Iqiq.BackReference
import Iqiq.TokenStream
import Iqiq.LzUncompress
import Iqiq.LzLoops
import Iqiq.LzRuns
import Iqiq.LzDecoding
import Iqiq.LzStreams
import Iqiq.LzRefinement
import Iqiq.LzAcceptance
import Iqiq.HandleProfile
import Iqiq.ProfileUnpack
import Iqiq.LzBounds
import Iqiq.LzEncoder
import Iqiq.Determinism
import Iqiq.StaleBytes
import Iqiq.OutFile
import Iqiq.Wbxml
import Iqiq.PatchCharset
import Iqiq.XmlGrammar
import Iqiq.XmlReading
import Iqiq.Dump
import Iqiq.DumpRoundTrip
import Iqiq.SortedSearch
import Iqiq.Whefs
import Iqiq.NameCache
import Iqiq.WhefsNames
import Iqiq.WhefsFiles
import Iqiq.UnpackScan
import Iqiq.ScanCoverage
import Iqiq.ScanReach
import Iqiq.NameBuffer
import Iqiq.FailedOutfile
import Iqiq.CharacterData
import Iqiq.DumpLayout
import Iqiq.FileBounds
import Iqiq.LinkChain
import Iqiq.BlockChains
import Iqiq.ScanTermination
import Iqiq.RecordTable
import Iqiq.BlockedFile
import Iqiq.WhefsEncode
import Iqiq.WhefsVolume
import Iqiq.WhefsDisk
import Iqiq.NextPath
import Iqiq.WhefsAllocation
import Iqiq.WhefsChains
import Iqiq.WhefsFree
import Iqiq.WhefsWrite
import Iqiq.WhefsGrowth
import Iqiq.WhefsWriting
import Iqiq.WhefsReading
import Iqiq.WhefsTruncate
import Iqiq.WhefsMount
import Iqiq.FileStore
import Iqiq.KeyedList
import Iqiq.WhefsOpened
import Iqiq.WhefsNaming
import Iqiq.WhefsInodes
import Iqiq.Simulation
import Iqiq.WhefsStore
import Iqiq.WhefsDirectory
import Iqiq.WhefsMkfs
import Iqiq.WhefsAppend
import Iqiq.WhefsOpening
import Iqiq.WhefsSessions
import Iqiq.WhefsRuns
import Iqiq.ScannedStore
import Iqiq.StoreEffects
import Iqiq.StoreInvariants
import Iqiq.StoreLives
import Iqiq.WhefsCensus
import Iqiq.WhefsLives
import Iqiq.WhefsPieces
import Iqiq.WhefsCollisions
import Iqiq.WhefsLongNames
import Iqiq.WhefsRemoval
import Iqiq.WhefsContents
import Iqiq.WhefsLastBlock
import Iqiq.WhefsShortcuts
