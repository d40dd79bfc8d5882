namespace DocstringEditor

def iterate {τ σ α : Type} (step : σ → StateT τ Option (σ ⊕ α)) : Nat → σ → StateT τ Option α
  | 0, _ => failure
  | n + 1, x => do
    match ← step x with
    | .inl x => iterate step n x
    | .inr a => return a

end DocstringEditor
