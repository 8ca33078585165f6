/-! # Progress

How a piece of work stands after one of its steps. A step that cannot be taken yet is `none` in the
functions that answer with this type. -/

namespace PeerCall

/-- There is more to do, from this state on, or the work is done with this answer. -/
inductive Progress (σ α : Type)
  | more (state : σ)
  | done (answer : α)
  deriving Repr, Inhabited

end PeerCall
