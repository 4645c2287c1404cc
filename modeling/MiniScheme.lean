import MiniScheme.Frames
import MiniScheme.Proofs.Eval.Division
import MiniScheme.Proofs.Eval.ShortCircuit
import MiniScheme.Proofs.Frames.Flattening
import MiniScheme.Proofs.Frames.Sharing
import MiniScheme.Proofs.Reader.Protocol
import MiniScheme.Proofs.Session.Accounts
import MiniScheme.Proofs.Session.Application
import MiniScheme.Proofs.Session.Domains
import MiniScheme.Proofs.Session.Equality
import MiniScheme.Proofs.Session.Independence
import MiniScheme.Proofs.Session.Joined
import MiniScheme.Proofs.Session.Limit
import MiniScheme.Proofs.Session.Phases
import MiniScheme.Proofs.Session.Recursion
import MiniScheme.Proofs.Session.Shadowing
import MiniScheme.Proofs.Session.WellFormed
import MiniScheme.Proofs.Token.Unsplit
import MiniScheme.Session
