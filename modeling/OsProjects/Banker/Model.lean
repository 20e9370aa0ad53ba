import Mathlib.Data.Fin.VecNotation
import OsProjects.C.Array

/-!
Owns the translation of `banker.c`: the four global arrays, `is_leq`,
`is_safe`, `request_resources`, `release_resources` and `init`.

The two macros `NUMBER_OF_CUSTOMERS` and `NUMBER_OF_RESOURCES` are the
parameters `customers` and `resources`. Every array access is checked against
the array's own bounds and every `int` addition and subtraction against the
range of `int`. The functions update the arrays in place, in source order, and
roll back where the source does; a state after a fault does not exist.

Does not own the messages printed, the command loop or the parsing of the
command line and of the resources file: `init` takes the numbers that `atoi`
and `fscanf` yield.
-/

namespace OsProjects.Banker

open OsProjects.C

abbrev numberOfCustomers : ℕ := 5

abbrev numberOfResources : ℕ := 4

/-- The global arrays. -/
@[ext]
structure State (customers resources : ℕ) where
  available : Fin resources → Int
  maximum : Fin customers → Fin resources → Int
  allocation : Fin customers → Fin resources → Int
  need : Fin customers → Fin resources → Int

variable {customers resources : ℕ}

/-! ## The safety test -/

def isLeqBody (a b : Fin resources → Int) (i : ℕ) (_ : Unit) : Outcome (LoopStep Int Unit) := do
  if (← read a i) > (← read b i) then return .exit 0 else return .next ()

def isLeq (a b : Fin resources → Int) (n : ℕ) : Outcome Int := do
  match ← forLoop (isLeqBody a b) n 0 () with
  | .exit result => return result
  | .next _ => return 1

/-- The local variables of `is_safe`. -/
structure Search (customers resources : ℕ) where
  flag : Int
  work : Fin resources → Int
  finish : Fin customers → Int

/-- `work[j] += allocation[i][j]`. -/
def collectBody (row : Fin resources → Int) (j : ℕ) (work : Fin resources → Int) :
    Outcome (Fin resources → Int) := do
  addAt work j (← read row j)

/-- The inner loop of `is_safe`: finish the first customer that can finish. -/
def searchBody (s : State customers resources) (i : ℕ) (search : Search customers resources) :
    Outcome (LoopStep (Search customers resources) (Search customers resources)) := do
  if (← read search.finish i) = 0 then
    if (← isLeq (← read s.need i) search.work resources) ≠ 0 then
      let finish ← write search.finish i 1
      let work ← forEach (collectBody (← read s.allocation i)) resources 0 search.work
      return .exit { flag := 1, work := work, finish := finish }
    else return .next search
  else return .next search

/-- The outer loop of `is_safe`. -/
def roundBody (s : State customers resources) (_round : ℕ)
    (search : Search customers resources) :
    Outcome (LoopStep Int (Search customers resources)) := do
  let found ← forLoop (searchBody s) customers 0 { search with flag := 0 }
  if found.state.flag = 0 then return .exit 0 else return .next found.state

def isSafe (s : State customers resources) : Outcome (Int × State customers resources) := do
  match ← forLoop (roundBody s) customers 0
    { flag := 0, work := s.available, finish := fun _ => 0 } with
  | .exit result => return (result, s)
  | .next _ => return (1, s)

/-! ## Requests -/

/-- Move `request[i]` from `available` and `need` to `allocation`. -/
def allocateAt (customer : Int) (request : Fin resources → Int) (i : ℕ)
    (s : State customers resources) : Outcome (State customers resources) := do
  let amount ← read request i
  let available ← subAt s.available i amount
  let allocation ← addAt₂ s.allocation customer i amount
  let need ← subAt₂ s.need customer i amount
  return { s with available := available, allocation := allocation, need := need }

/-- The body of both rollback loops of `request_resources`. -/
def rollbackAt (customer : Int) (request : Fin resources → Int) (i : ℕ)
    (s : State customers resources) : Outcome (State customers resources) := do
  let amount ← read request i
  let available ← addAt s.available i amount
  let allocation ← subAt₂ s.allocation customer i amount
  let need ← addAt₂ s.need customer i amount
  return { s with available := available, allocation := allocation, need := need }

def requestBody (customer : Int) (request : Fin resources → Int) (i : ℕ)
    (s : State customers resources) :
    Outcome (LoopStep (Int × State customers resources) (State customers resources)) := do
  let amount ← read request i
  let needed ← read (← read s.need customer) i
  let inStock ← read s.available i
  let err : Int := if amount < 0 ∨ amount > needed then -1 else 0
  let err : Int := if amount > inStock then -2 else err
  if err ≠ 0 then
    let s ← whileDecrement (rollbackAt customer request) i s
    return .exit (err, s)
  else
    let s ← allocateAt customer request i s
    return .next s

def requestResources (customer : Int) (request : Fin resources → Int)
    (s : State customers resources) : Outcome (Int × State customers resources) := do
  if customer < 0 ∨ customer ≥ customers then return (-1, s) else
    match ← forLoop (requestBody customer request) resources 0 s with
    | .exit result => return result
    | .next s =>
        let (safe, s) ← isSafe s
        if safe = 0 then
          let s ← forEach (rollbackAt customer request) resources 0 s
          return (-3, s)
        else return (0, s)

/-! ## Releases -/

/-- The body of the rollback loop of `release_resources`. It restores the
allocation one entry below the one it takes out of `available`. -/
def releaseRollbackAt (customer : Int) (release : Fin resources → Int) (i : ℕ)
    (s : State customers resources) : Outcome (State customers resources) := do
  let allocation ← addAt₂ s.allocation customer ((i : Int) - 1) (← read release ((i : Int) - 1))
  let available ← subAt s.available i (← read release i)
  return { s with available := available, allocation := allocation }

def releaseBody (customer : Int) (release : Fin resources → Int) (i : ℕ)
    (s : State customers resources) :
    Outcome (LoopStep (Int × State customers resources) (State customers resources)) := do
  let amount ← read release i
  let held ← read (← read s.allocation customer) i
  if amount < 0 ∨ amount > held then
    let s ← whileDecrement (releaseRollbackAt customer release) i s
    return .exit (-1, s)
  else
    let allocation ← subAt₂ s.allocation customer i amount
    let available ← addAt s.available i amount
    return .next { s with available := available, allocation := allocation }

def releaseResources (customer : Int) (release : Fin resources → Int)
    (s : State customers resources) : Outcome (Int × State customers resources) := do
  if customer < 0 ∨ customer ≥ customers then return (-1, s) else
    match ← forLoop (releaseBody customer release) resources 0 s with
    | .exit result => return result
    | .next s => return (0, s)

/-! ## Initialisation -/

/-- Global arrays start out zero. -/
def State.zero (customers resources : ℕ) : State customers resources where
  available := fun _ => 0
  maximum := fun _ _ => 0
  allocation := fun _ _ => 0
  need := fun _ _ => 0

/-- `argv` holds the numbers `atoi` yields, `resourcesFile` the numbers read
from the file, or `none` when it cannot be opened. -/
def init (argc : Int) (argv : Fin resources → Int)
    (resourcesFile : Option (Fin customers → Fin resources → Int))
    (s : State customers resources) : Int × State customers resources :=
  if argc ≠ 1 + resources then (-1, s) else
    match resourcesFile with
    | none => (-2, { s with available := argv })
    | some numbers => (0, { s with available := argv, maximum := numbers, need := numbers })

/-- `resources.txt`. -/
def shippedMaximum : Fin numberOfCustomers → Fin numberOfResources → Int :=
  ![![6, 4, 7, 3], ![4, 2, 3, 2], ![2, 5, 3, 3], ![6, 3, 3, 2], ![5, 6, 7, 5]]

/-- The state after `./banker 10 6 7 8` has started. -/
def demoState : State numberOfCustomers numberOfResources :=
  (init 5 ![10, 6, 7, 8] (some shippedMaximum) (State.zero _ _)).2

end OsProjects.Banker
