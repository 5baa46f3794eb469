import GitlabPages.Path
import GitlabPages.Path.Clean
import GitlabPages.Url
import GitlabPages.Url.RoundTrip
import GitlabPages.Zip.Archive
import GitlabPages.Zip.Open
import GitlabPages.Zip.Vfs
import GitlabPages.Zip.Cache
import GitlabPages.Source.Gitlab
import GitlabPages.Auth.Session
import GitlabPages.Auth.Callback
import GitlabPages.Auth.Access
import GitlabPages.Auth.Protocol
import GitlabPages.Legacy.Domain
import GitlabPages.Netutil.SharedLimit
import GitlabPages.App
