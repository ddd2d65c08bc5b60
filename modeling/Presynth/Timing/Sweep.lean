import Presynth.Timing.Boundary
import Presynth.Timing.Scratch
/-!
# The latest arrivals from a startpoint

A query finds, for one startpoint, the latest arrival at every endpoint. First the region is
collected: all signals that can be reached without going on at an endpoint, with the number of edges
that lead to each from within. Then the region is swept: a signal is expanded when all its edges
have been followed, so that its arrival is final by then. Signals on a cycle are never expanded.

The scratch marks outlive a query, also one that fails midway; the next query clears them first.
-/

namespace Presynth

variable {α : Type} {n : Nat}

/-- A worst path from a startpoint to an endpoint. -/
structure TimingPath (α : Type) where
  /-- The startpoint as the design names it. -/
  source : String
  /-- The endpoint as the design names it. -/
  sink : String
  /-- The signals on the path in order. -/
  nodes : List String
  /-- The time from the launch to the arrival at the endpoint, in nanoseconds. -/
  delay : α
  boundary : PathBoundary
  deriving DecidableEq, Repr

/-- Cuts `ending` off the end of a name that ends so. -/
def dropPin (ending name : String) : String :=
  let text := name.toList
  let kept := text.length - ending.length
  if text.drop kept = ending.toList then String.ofList (text.take kept) else name

/-- The register that a pin belongs to: clock and output pins carry an ending of their own. -/
def logicalName (name : String) : String := dropPin "_Q_" (dropPin "_CK_" name)

/-! ### Marks -/

namespace Scratch

/-- Is this signal in the region? -/
def inRegion (s : Scratch α n) (v : Fin n) : Bool := (s.get (.signal v)).inRegion

/-- The number of edges to a signal that have not been followed yet. -/
def pending (s : Scratch α n) (v : Fin n) : Nat := (s.get (.signal v)).pending

/-- The latest known arrival at a signal. -/
def arrival? (s : Scratch α n) (v : Fin n) : Option (Arrival α n) := (s.get (.signal v)).arrival

/-- Records an arrival. -/
def setArrival (s : Scratch α n) (p : Place n) (a : Arrival α n) : Scratch α n :=
  s.modify p fun m => { m with arrival := some a }

/-- Counts one more edge to a signal. -/
def countEdge (s : Scratch α n) (v : Fin n) : Scratch α n :=
  s.modify (.signal v) fun m => { m with pending := m.pending + 1 }

/-- Counts one edge to a signal as followed. -/
def followEdge (s : Scratch α n) (v : Fin n) : Scratch α n :=
  s.modify (.signal v) fun m => { m with pending := m.pending - 1 }

end Scratch

/-! ### The region -/

namespace TimingView

/-- Counts the edges to the signals `vs` and puts those that are new to the region on the stack. -/
def countEdges : List (Fin n) → Scratch α n → List (Fin n) → Scratch α n × List (Fin n)
  | [], s, stack => (s, stack)
  | v :: vs, s, stack =>
    let s := s.countEdge v
    if s.inRegion v then countEdges vs s stack
    else countEdges vs (s.touch (.signal v)) (v :: stack)

/-- Takes signals off the stack and follows the edges of those that are no endpoints, for at most
`steps` signals. -/
def searchRegion (view : TimingView α n) : Nat → Scratch α n → List (Fin n) → Scratch α n
  | 0, s, _ => s
  | _ + 1, s, [] => s
  | steps + 1, s, u :: stack =>
    if view.isEndpoint u then view.searchRegion steps s stack
    else
      let (s, stack) := countEdges (view.fanout u) s stack
      view.searchRegion steps s stack

/-- Marks what can be reached from the launch of `start` without going on at an endpoint. A signal
is put on the stack once at most, so as many steps as there are signals empty it. -/
def collectRegion (view : TimingView α n) (s : Scratch α n) (start : Fin n) : Scratch α n :=
  let (s, stack) := countEdges (view.fanout start) (s.touch .launch) []
  view.searchRegion n s stack

/-! ### Arrivals -/

section Arrivals

variable [Zero α] [Add α] [Sub α] [LT α] [DecidableLT α]

/-- The arrival at a signal of delay `d` that is offered by an arrival at its driver. -/
def through (a : Arrival α n) (v : Fin n) (d : α) : Arrival α n := ⟨a.time + d, v :: a.trail⟩

/-- The later of a known arrival and an offered one at a signal of delay `d`. The times compared are
those before that delay; of equally late arrivals the known one stays. -/
def later (known : Option (Arrival α n)) (a : Arrival α n) (v : Fin n) (d : α) : Arrival α n :=
  match known with
  | none => through a v d
  -- the known time holds the delay of `v` already, the offered one does not yet
  | some k => if k.time - d < a.time then through a v d else k

/-- Offers an arrival to the signal `v`. -/
def relax (view : TimingView α n) (s : Scratch α n) (v : Fin n) (a : Arrival α n) :
    Except (TimingError α) (Scratch α n) :=
  match view.delay v with
  | .error e => .error e
  | .ok d => .ok (s.setArrival (.signal v) (later (s.arrival? v) a v d))

/-- Offers an arrival to each of the signals `vs`, up to the first that has no delay. -/
def relaxAll (view : TimingView α n) (a : Arrival α n) :
    List (Fin n) → Scratch α n → Except (TimingError α) Unit × Scratch α n
  | [], s => (.ok (), s)
  | v :: vs, s =>
    match view.relax s v a with
    | .error e => (.error e, s)
    | .ok s => view.relaxAll a vs s

/-- The arrival at a place where `u` is the last signal: `u` itself is added if it is missing. -/
def closing (a : Arrival α n) (u : Fin n) (d : α) : Arrival α n :=
  if a.trail.head? = some u then a else through a u d

/-- The arrival at a place, closed with the signal `u`. -/
def finish (view : TimingView α n) (s : Scratch α n) (p : Place n) (u : Fin n) :
    Except (TimingError α) (Arrival α n) × Scratch α n :=
  match view.delay u with
  | .error e => (.error e, s)
  | .ok d =>
    let a := closing ((s.get p).arrival.getD ⟨0, []⟩) u d
    -- the launch and a capture of the same register are different places
    (.ok a, s.setArrival p a)

/-! ### The sweep -/

/-- The state of a sweep: marks, the signals that are ready, and the endpoints reached so far, both
in the order in which they became so. -/
structure Front (α : Type) (n : Nat) where
  scratch : Scratch α n
  ready : List (Fin n)
  reached : List (Fin n)

/-- Counts the edges to the signals `vs` as followed; a signal without further edges is ready. -/
def followEdges : List (Fin n) → Front α n → Front α n
  | [], f => f
  | v :: vs, f =>
    let s := f.scratch.followEdge v
    -- an edge is followed as often as it was counted, so a signal becomes ready once at most
    followEdges vs
      { f with scratch := s, ready := if s.pending v = 0 then f.ready ++ [v] else f.ready }

/-- Offers an arrival along the edges to the signals `vs` and follows each, up to the first that has
no delay. -/
def expand (view : TimingView α n) (a : Arrival α n) :
    List (Fin n) → Front α n → Except (TimingError α) Unit × Front α n
  | [], f => (.ok (), f)
  | v :: vs, f =>
    match view.relax f.scratch v a with
    | .error e => (.error e, f)
    | .ok s => view.expand a vs (followEdges [v] { f with scratch := s })

/-- Takes ready signals in order, for at most `steps` of them: an endpoint is reached, any other
signal is expanded. -/
def sweep (view : TimingView α n) : Nat → Front α n → Except (TimingError α) Unit × Front α n
  | 0, f => (.ok (), f)
  | steps + 1, f =>
    match f.ready with
    | [] => (.ok (), f)
    | u :: ready =>
      if view.isEndpoint u then
        view.sweep steps { f with ready := ready, reached := f.reached ++ [u] }
      else
        match view.expand ((f.scratch.arrival? u).getD ⟨0, []⟩) (view.fanout u)
            { f with ready := ready } with
        | (.error e, f) => (.error e, f)
        | (.ok (), f) => view.sweep steps f

/-- The path from `start` that arrives at `stop` so. -/
def pathOf (view : TimingView α n) (start stop : Fin n) (a : Arrival α n) : TimingPath α :=
  { source := logicalName (view.name start)
    sink := logicalName (view.name stop)
    nodes := a.trail.reverse.map view.name
    delay := a.time
    boundary := .classify (view.kind start) (view.kind stop) }

/-- The paths from `start` to the endpoints `stops`. -/
def pathsTo (view : TimingView α n) (start : Fin n) :
    List (Fin n) → Scratch α n → Except (TimingError α) (List (TimingPath α)) × Scratch α n
  | [], s => (.ok [], s)
  | stop :: stops, s =>
    match view.finish s (.signal stop) stop with
    | (.error e, s) => (.error e, s)
    | (.ok a, s) =>
      match view.pathsTo start stops s with
      | (.error e, s) => (.error e, s)
      | (.ok paths, s) => (.ok (view.pathOf start stop a :: paths), s)

/-- Sweeps the region of `start`, once it is collected. -/
def launchFrom (view : TimingView α n) (s : Scratch α n) (start : Fin n) :
    Except (TimingError α) (List (TimingPath α)) × Scratch α n :=
  match view.finish (s.setArrival .launch ⟨0, []⟩) .launch start with
  | (.error e, s) => (.error e, s)
  | (.ok launch, s) =>
    match view.relaxAll launch (view.fanout start) s with
    | (.error e, s) => (.error e, s)
    | (.ok (), s) =>
      match view.sweep n (followEdges (view.fanout start) ⟨s, [], []⟩) with
      | (.error e, f) => (.error e, f.scratch)
      | (.ok (), f) => view.pathsTo start f.reached f.scratch

/-- The worst path from `start` to every endpoint that the sweep reaches, on marks that earlier
queries may have left. What is no startpoint has no paths. -/
def analyzeFrom (view : TimingView α n) (s : Scratch α n) (start : Fin n) :
    Except (TimingError α) (List (TimingPath α)) × Scratch α n :=
  if view.isStartpoint start then view.launchFrom (view.collectRegion s.reset start) start
  else (.ok [], s.reset)

/-- The worst paths from each of the startpoints `starts`, up to the first that fails. -/
def analyzeEach (view : TimingView α n) :
    List (Fin n) → Scratch α n → Except (TimingError α) (List (TimingPath α)) × Scratch α n
  | [], s => (.ok [], s.reset)
  | start :: starts, s =>
    match view.analyzeFrom s start with
    | (.error e, s) => (.error e, s)
    | (.ok paths, s) =>
      match view.analyzeEach starts s with
      | (.error e, s) => (.error e, s)
      | (.ok more, s) => (.ok (paths ++ more), s)

/-- The worst paths from all startpoints in name order. -/
def analyzeAll (view : TimingView α n) (s : Scratch α n) :
    Except (TimingError α) (List (TimingPath α)) × Scratch α n :=
  view.analyzeEach view.startpoints s

end Arrivals

end TimingView

/-- All worst timing paths of a netlist. -/
def Netlist.timingPaths [Zero α] [Add α] [Sub α] [LT α] [DecidableLT α] (g : Netlist α) :
    Except (TimingError α) (List (TimingPath α)) :=
  (g.timingView.analyzeAll .fresh).1

end Presynth
