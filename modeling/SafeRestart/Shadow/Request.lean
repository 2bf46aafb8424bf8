import SafeRestart.Shadow.Query

/-!
# Requests

The questions about shadows as values, so that a whole conversation can be written down and
carried out one request after the other.
-/

namespace SafeRestart

inductive Request where
  | shadow (s : Nat)
  | recompute (s : Nat)
  | forget (s : Nat)
  | forgetAll
  | clobberedByInst (s i : Nat)
  | clobberedByInterval (s other : Nat)
  | clobberedByRestore (s reg : Nat)
  | overlapped (s other : Nat)
  | registersMergeable (a b : Nat)
  | slotsMergeable (a b : Nat)
  | verify
deriving DecidableEq

inductive Answer where
  | shadow (shadow : Shadow)
  | verdict (holds : Bool)
  | done
deriving DecidableEq

namespace Setting

def answer (σ : Setting) : Request -> Query Answer
  | .shadow s => .shadow <$> σ.shadow s
  | .recompute s => .shadow <$> σ.recompute s
  | .forget s => do
      modify fun cache => cache.forget s
      return .done
  | .forgetAll => do
      set ([] : ShadowCache)
      return .done
  | .clobberedByInst s i => .verdict <$> σ.isClobberedByInst s i
  | .clobberedByInterval s other => .verdict <$> σ.isClobberedByInterval s other
  | .clobberedByRestore s reg => .verdict <$> σ.isClobberedByRestore s reg
  | .overlapped s other => .verdict <$> σ.isOverlappedByInterval s other
  | .registersMergeable a b => .verdict <$> σ.areRegistersMergeable a b
  | .slotsMergeable a b => .verdict <$> σ.areSlotsMergeable a b
  | .verify => do
      Query.ofExcept σ.verifyFunction
      return .done

def respond (σ : Setting) (cache : ShadowCache) (request : Request) :
    Except Error Answer × ShadowCache :=
  (σ.answer request).run.run cache

end Setting
end SafeRestart
