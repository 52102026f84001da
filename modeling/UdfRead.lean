import UdfRead.Dir
import UdfRead.StreamRefinement
import UdfRead.ReadsInPlace
import UdfRead.LargeReads
import UdfRead.FailedChain
import UdfRead.VdsTermination
import UdfRead.EntryTermination
import UdfRead.DecoderBounds
import UdfRead.DirEncoding
import UdfRead.EntryEncoding
import UdfRead.Names
import UdfRead.MetadataFile
import UdfRead.MirrorCopies
import UdfRead.ReserveSequence
import UdfRead.LookupRuns
import UdfRead.Seeking
import UdfRead.DefaultInput
import UdfRead.FarPositions
import UdfRead.DeletedEntries
import UdfRead.PublishedOnce
import UdfRead.FailedOpen
import UdfRead.Close
import UdfRead.SharedLookups
import UdfRead.Session
import UdfRead.SessionContents
import UdfRead.FileAccess
import UdfRead.Udfls
import UdfRead.UdflsTermination
import UdfRead.CachedPaths
import UdfRead.OpenImage
import UdfRead.Udfcat
import UdfRead.RecordedTree
import UdfRead.RecordedVolume
import UdfRead.RecordedFaults
