import Treeprint.Interner

/-!
# Requests to an interner

A session with one interner is a list of requests, each with its reply. Only the three ways of
interning can change the interner.
-/

namespace Treeprint.Interner

inductive Request where
  | intern (text : String)
  | tryIntern (text : String)
  | internOwned (text : String)
  | lookup (name : Name)
  | find (name : Name)
  | list
  deriving Repr

inductive Reply where
  | issued (name : Name)
  | refused (error : Error)
  | failed (error : Error)
  | text (text : String)
  | foreign (complaint : Foreign)
  | found (text : Option String)
  | listing (entries : List (Name × String))
  | unlisted (error : Name.IndexError)
  deriving Repr

/-- The reply to an interning that stops at a full interner. -/
def Reply.ofIntern : EStateM.Result Error Interner Name → Reply × Interner
  | .ok n i => (.issued n, i)
  | .error e i => (.failed e, i)

/-- The reply to a request, and the interner after it. -/
def Request.run : Request → Interner → Reply × Interner
  | .intern text, i => Reply.ofIntern (Interner.intern text i)
  | .internOwned text, i => Reply.ofIntern (Interner.internOwned text i)
  | .tryIntern text, i =>
    match Interner.tryIntern text i with
    | (.ok n, i) => (.issued n, i)
    | (.error e, i) => (.refused e, i)
  | .lookup n, i =>
    match i.lookup n with
    | .ok text => (.text text, i)
    | .error f => (.foreign f, i)
  | .find n, i => (.found (i.lookup? n), i)
  | .list, i =>
    match i.entries with
    | .ok entries => (.listing entries, i)
    | .error e => (.unlisted e, i)

def after (i : Interner) (requests : List Request) : Interner :=
  requests.foldl (fun i r => (r.run i).2) i

end Treeprint.Interner
