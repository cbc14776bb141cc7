import FlatJson.Scan.State

/-!
# Settings

The knobs of the shape detector, of a tokenizer and of a pool, with their defaults.  All numbers
are 64-bit counts.
-/

namespace FlatJson

/-- The largest 64-bit count. -/
def maxCount : Nat := 0xFFFFFFFFFFFFFFFF

structure ShapeSettings where
  /-- An array of more elements than this is large. -/
  largeArrayThreshold : Nat := 1000
  /-- How many bytes of an array are sampled at most. -/
  sampleWindow : Nat := 65536
  /-- How many elements of an array are sampled at most. -/
  sampleElements : Nat := 256
  /-- How many bytes of an object are searched for members that are arrays. -/
  envelopeWindow : Nat := 4096
  deriving DecidableEq, Repr

structure TokenizerSettings where
  shape : ShapeSettings := {}
  /-- Whether the shape is detected before the scan. -/
  detectsShape : Bool := true
  /-- The room for tokens that is reserved when the text is not a large array. -/
  initialCapacity : Nat := 64
  /-- The room reserved on top of an estimate, in percent of it. -/
  headroomPercent : Nat := 12
  /-- How many containers may nest. -/
  maxDepth : Nat := 512
  /-- Whether several values may follow each other in one text. -/
  allowsSeveral : Bool := false
  deriving DecidableEq, Repr

/-- The settings that the scan depends on. -/
def TokenizerSettings.limits (s : TokenizerSettings) : Scan.Limits :=
  ⟨s.maxDepth, s.allowsSeveral⟩

structure PoolSettings where
  /-- How many idle tokenizers are kept. -/
  maxIdle : Nat := 16
  /-- The settings of the tokenizers that the pool makes. -/
  tokenizer : TokenizerSettings := {}
  deriving DecidableEq, Repr

end FlatJson
