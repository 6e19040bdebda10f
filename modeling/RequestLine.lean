import RequestLine.Main
import RequestLine.Interchange.Event
import RequestLine.Interchange.Json
import RequestLine.Interchange.Request
import RequestLine.Machine.Table
import RequestLine.Request.Completion
import RequestLine.Request.Resolve
import RequestLine.Proofs.Nesting
import RequestLine.Proofs.Viable
import RequestLine.Proofs.RoundTrip
import RequestLine.Proofs.Properties
import RequestLine.Proofs.Segments
import RequestLine.Proofs.Blame
import RequestLine.Proofs.Coverage
import RequestLine.Proofs.Navigation
import RequestLine.Proofs.Effort
import RequestLine.Proofs.Leniency
import RequestLine.Proofs.Location
import RequestLine.Proofs.Completeness
import RequestLine.Proofs.Separation
import RequestLine.Proofs.Residue
import RequestLine.Proofs.Words
import RequestLine.Proofs.Drafting
import RequestLine.Proofs.Redirection
import RequestLine.Proofs.Literals
import RequestLine.Proofs.Padding
import RequestLine.Proofs.Walking
import RequestLine.Proofs.Dump
import RequestLine.Proofs.Trimming
