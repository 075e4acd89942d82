import CachePool.Decimal.Style
import CachePool.Text.Outline

/-!
# Refused configurations

A configuration is refused before anything is built. Each error names the first
parameter at fault; its wording is fixed by `Refusal.message`.
-/

namespace CachePool

open Decimal Text

/-- The reasons for which a cache or a pool is not built. -/
inductive Refusal where
  /-- A pool was to park nothing. -/
  | zeroCapacity
  /-- A sharded pool was to have no shard. -/
  | zeroShards
  /-- Entries were to be promoted without a hit. -/
  | zeroThreshold
  /-- The share of the old generation leaves one of the generations nothing. -/
  | ratioOutOfRange (ratio : Float)
  deriving BEq

namespace Refusal

/-- The name of an error, without its details. -/
def kind : Refusal → String
  | zeroCapacity => "ZeroCapacity"
  | zeroShards => "ZeroShards"
  | zeroThreshold => "ZeroPromotionThreshold"
  | ratioOutOfRange _ => "InvalidOldRatio"

/-- The text under which an error is reported. -/
def message : Refusal → String
  | zeroCapacity => "capacity must be greater than zero"
  | zeroShards => "shard count must be greater than zero"
  | zeroThreshold => "promotion threshold must be at least one hit"
  | ratioOutOfRange ratio =>
    "old generation ratio must lie strictly between 0 and 1, got " ++ Style.plain.write ratio

/-- The described shape of an error. -/
def outline : Refusal → Outline
  | ratioOutOfRange ratio => .tuple "InvalidOldRatio" [.word (Style.exact.write ratio)]
  | e => .word e.kind

end Refusal

end CachePool
