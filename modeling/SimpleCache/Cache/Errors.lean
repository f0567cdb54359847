import SimpleCache.Go.Text

/-!
# Cache.Errors — the error values of the cache and the key check (`cache/errors.go`)
-/

namespace SimpleCache

/-- The errors the modelled functions return, up to `errors.Is`. -/
inductive Err
  | notFound
  | invalidKey
  | valueTooLarge
  | preconditionFailed
  | invalidVersion
  | staleVersion
  | overloaded
  | canceled
  | deadlineExceeded
  /-- `errors.New(text)`, or a driver error behind a public text. -/
  | message (text : String)
  deriving DecidableEq, Repr

/-- The text of `err.Error()`. -/
def Err.text : Err → String
  | .notFound => "key not found"
  | .invalidKey => "key must contain 1 to 256 UTF-8 bytes without NUL"
  | .valueTooLarge => "value exceeds 1MiB"
  | .preconditionFailed => "source version precondition failed"
  | .invalidVersion => "invalid source invalidation version"
  | .staleVersion => "value is older than an observed source version"
  | .overloaded => "cache admission capacity exhausted"
  | .canceled => "context canceled"
  | .deadlineExceeded => "context deadline exceeded"
  | .message text => text

namespace Cache

/-- `MaxValueBytes`. -/
def maxValueBytes : ℕ := 2 ^ 20

/-- The keys for which `ValidateKey` returns nil. -/
def ValidKey (key : GoString) : Prop :=
  key.length ≠ 0 ∧ key.length ≤ 256 ∧ Go.validString key = true ∧ 0 ∉ key

instance : DecidablePred ValidKey := fun key => by unfold ValidKey; infer_instance

/-- `ValidateKey`. -/
def validateKey (key : GoString) : Except Err Unit :=
  if ValidKey key then .ok () else .error .invalidKey

end Cache

end SimpleCache
