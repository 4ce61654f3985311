import TrustPermit.Engine.Deliver
import TrustPermit.Engine.Queries
import TrustPermit.Json.Host
import TrustPermit.Json.Message
import TrustPermit.Json.Permission
import TrustPermit.Json.Query
import TrustPermit.Json.Report
import TrustPermit.Params.Document
import TrustPermit.Proofs.Coins
import TrustPermit.Proofs.Departures
import TrustPermit.Proofs.Frame
import TrustPermit.Proofs.Identifiers
import TrustPermit.Proofs.Lookups
import TrustPermit.Proofs.Mirrors
import TrustPermit.Proofs.Numerals
import TrustPermit.Proofs.Prefixes
import TrustPermit.Proofs.Prices
import TrustPermit.Proofs.Ranges
import TrustPermit.Proofs.Readers
import TrustPermit.Proofs.Repayments
import TrustPermit.Proofs.Reports
import TrustPermit.Proofs.Requests
import TrustPermit.Proofs.Sessions
import TrustPermit.Proofs.Shares
import TrustPermit.Proofs.Slashers
import TrustPermit.Proofs.Sponsors
import TrustPermit.Proofs.Stamps
import TrustPermit.Proofs.Walks
import TrustPermit.Proofs.Windows
import TrustPermit.Proofs.Written
