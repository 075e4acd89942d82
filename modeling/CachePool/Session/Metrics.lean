import CachePool.Cache.Metrics

/-!
# Sessions with the metrics of a cache

Events are counted one by one, single measurements can be overwritten, and the
derived figures are read off in between.
-/

namespace CachePool.Session

open Metrics Text

/-- A command of a session. -/
inductive MetricsCommand where
  | hit
  | youngHit
  | oldHit
  /-- Raise one counter. -/
  | bump (c : Counter)
  | sizes (young old : UInt64)
  | assign (c : Counter) (value : UInt64)
  | hitRate
  | missRate
  | oldHitRatio
  | oldUtilization
  | coreReport
  | report
  | name
  | describe (form : Form)

/-- What a command replies. -/
inductive MetricsReply where
  | done
  | figure (x : Float)
  | report (r : Report)
  | text (s : String)

/-- Reply with a figure or a fault that is read off the metrics. -/
def readMetrics (view : CacheMetrics → Except Fault MetricsReply) :
    Action CacheMetrics MetricsReply := fun m =>
  match view m with
  | .ok reply => .ok reply m
  | .error fault => .error fault m

/-- The reply to a command. -/
def MetricsCommand.reply : MetricsCommand → Action CacheMetrics MetricsReply
  | .hit => do
    CacheMetrics.countHit
    return .done
  | .youngHit => do
    CacheMetrics.countYoungHit
    return .done
  | .oldHit => do
    CacheMetrics.countOldHit
    return .done
  | .bump c => do
    CacheMetrics.bump c
    return .done
  | .sizes young old => do
    modify fun m => m.withSizes young old
    return .done
  | .assign c value => do
    modify fun m => m.set value c
    return .done
  | .hitRate => readMetrics fun m => .ok (.figure m.hitRate)
  | .missRate => readMetrics fun m => .figure <$> m.missRate
  | .oldHitRatio => readMetrics fun m => .ok (.figure m.oldHitRatio)
  | .oldUtilization => readMetrics fun m => .ok (.figure m.oldUtilization)
  | .coreReport => readMetrics fun m => .report <$> m.coreReport
  | .report => readMetrics fun m => .report <$> m.report
  | .name => return .text CacheMetrics.policyName
  | .describe form => readMetrics fun m => .ok (.text (m.outline.write form))

/-- Play a command. -/
def MetricsCommand.play (command : MetricsCommand) :
    StateM CacheMetrics (Except Fault MetricsReply) :=
  command.reply.attempt

/-- Play commands on fresh metrics; the answer holds the replies and the metrics at the end. -/
def playMetrics (oldCapacity : UInt64) (commands : List MetricsCommand) :
    List (Except Fault MetricsReply) × CacheMetrics :=
  (commands.mapM MetricsCommand.play).run { oldCapacity }

end CachePool.Session
