import Mathlib.Init

/-!
# Constants

The constants that several components use, and the offset at which the chunk of a byte ends.
-/

namespace Arweave

/-- `?DATA_CHUNK_SIZE` -/
def dataChunkSize : Nat := 256 * 1024

/-- `?PARTITION_SIZE` -/
def partitionSize : Nat := 3600000000000

/-- `?DEFAULT_SYNC_BUCKET_SIZE` -/
def defaultSyncBucketSize : Nat := 10000000000

/-- `?TX_SIZE_BASE` -/
def txSizeBase : Int := 3210

/-- `ar_poa:get_padded_offset/2` -/
def getPaddedOffset (offset strictDataSplitThreshold : Int) : Int :=
  let diff := offset - strictDataSplitThreshold
  strictDataSplitThreshold + ((diff - 1).tdiv dataChunkSize + 1) * dataChunkSize

end Arweave
