import MicroFlow.Digest.Sha256

/-!
# Cache keys

The key of an analysis run is the digest of the analysis, the solver and the source
text, each followed by a zero byte.
-/

namespace MicroFlow.Cache

/-- What a key is the digest of. -/
def keyMaterial (source : Text.Bytes) (analysis solver : String) : Text.Bytes :=
  Text.toBytes analysis ++ 0 :: (Text.toBytes solver ++ 0 :: (source ++ [0]))

/-- The key of an analysis run. -/
def key (source : Text.Bytes) (analysis solver : String) : String :=
  Text.toHex (Sha256.digest (keyMaterial source analysis solver))

end MicroFlow.Cache
