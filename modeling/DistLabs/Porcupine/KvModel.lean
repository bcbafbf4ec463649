import DistLabs.Labgob
import DistLabs.Porcupine.Checker

/-!
# The model of the key/value store

`models/kv.go`: what the tests of the store check histories against.  A model is for one key; a
history is first taken apart by its keys (`partition`).
-/

set_option autoImplicit false

namespace DistLabs.Porcupine

/-- `KvInput`; `0` is a get, `1` a put, and anything else an append. -/
structure KvInput where
  /-- What to do. -/
  op : UInt8
  /-- The key. -/
  key : Bytes
  /-- The value, for a put and an append. -/
  value : Bytes
deriving DecidableEq, Repr

/-- `KvOutput`. -/
structure KvOutput where
  /-- What a get has returned. -/
  value : Bytes
deriving DecidableEq, Repr

/-- `Init`, `Step` and `Equal` of `KvModel`; it has no `Equal` of its own, so that `fillDefault`
puts `ShallowEqual` in. -/
def kvModel : Model Bytes KvInput KvOutput where
  init := []
  step st inp out :=
    if inp.op = 0 then (out.value == st, st)
    else if inp.op = 1 then (true, inp.value)
    else (true, st ++ inp.value)
  equal st st' := st == st'

end DistLabs.Porcupine
