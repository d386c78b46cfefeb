/- Orders given by several keys in turn, for stable sorting. -/
namespace DeadCode.Ranking

def firstOf {α : Type} (orders : List (α → α → Ordering)) (a b : α) : Ordering :=
  orders.foldr (fun order rest => (order a b).then rest) .eq

def sort {α : Type} (orders : List (α → α → Ordering)) (xs : List α) : List α :=
  xs.mergeSort fun a b => firstOf orders a b != .gt

def text (a b : String) : Ordering := if a < b then .lt else if a = b then .eq else .gt

def optional {α : Type} (order : α → α → Ordering) : Option α → Option α → Ordering
  | none, none => .eq
  | none, some _ => .lt
  | some _, none => .gt
  | some a, some b => order a b

end DeadCode.Ranking
