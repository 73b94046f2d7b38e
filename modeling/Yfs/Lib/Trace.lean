import Mathlib.Data.List.Basic

/-! Systems with visible events and silent steps, and simulations between them. -/
namespace Yfs.Lib
variable {σ τ ε : Type} {step : σ → Option ε → σ → Prop} {step' : τ → Option ε → τ → Prop}

end Yfs.Lib
